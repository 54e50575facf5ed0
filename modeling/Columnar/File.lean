import Columnar.Bytes
import Columnar.Error
import Columnar.Page.Pointer

/-! Files: open ones, which are read at positions, and those that are being written, which only
grow. What a file on disk holds may be replaced while it is open. -/

namespace Columnar

inductive File
  | memory (bytes : Array UInt8)
  /-- The size is that of the time when the file was opened. -/
  | disk (size : Nat) (bytes : Array UInt8)

namespace File

/-- A file on disk that is opened now. -/
def onDisk (bytes : Array UInt8) : File := disk bytes.size bytes

/-- What the file holds now. -/
def bytes : File → Array UInt8
  | memory bytes | disk _ bytes => bytes

def size : File → Nat
  | memory bytes => bytes.size
  | disk size _ => size

/-- The bytes from `offset` on, all of which have to be there. The size that is known says which
positions there are; a file on disk may have become shorter than that. -/
def readAt (f : File) (offset length : Nat) : Except Error Bytes :=
  if offset + length ≤ f.size then
    let found := f.bytes.extract offset (offset + length)
    if found.size = length then .ok found.toList else .error (.file .endOfFile)
  else .error (.corruption (.pastEnd length offset f.size))

theorem readAt_memory (bytes : Array UInt8) (offset length : Nat) :
    (memory bytes).readAt offset length =
      if offset + length ≤ bytes.size then .ok (bytes.extract offset (offset + length)).toList
      else .error (.corruption (.pastEnd length offset bytes.size)) := by
  simp only [readAt, size, File.bytes, Array.size_extract]
  split
  next h => rw [if_pos (by omega)]
  next => rfl

def read (f : File) (p : Pointer) : Except Error Bytes := f.readAt p.offset.toNat p.size.toNat

/-- The file in some place, if there is one. -/
def openAt : Option File → Except Error File
  | some f => .ok f
  | none => .error (.file .notFound)

/-- The open file after what it held on disk was replaced. -/
def replace (bytes : Array UInt8) : File → File
  | memory held => memory held
  | disk size _ => disk size bytes

end File

inductive OutputFile
  | memory (bytes : Array UInt8)
  /-- What is stored on disk is written from `position` on. Bytes are held back to be stored many at
  a time. -/
  | disk (stored : Array UInt8) (position : Nat) (held : Array UInt8)

namespace OutputFile

/-- How many bytes are held back at most. -/
def capacity : Nat := 8192

/-- A new file in a place where there must not be one. -/
def create (occupied : Bool) : Except Error OutputFile :=
  if occupied then .error (.file .alreadyExists) else .ok (.disk #[] 0 #[])

/-- The file as a reader finds it who opens it now. -/
def visible : OutputFile → File
  | memory bytes => .memory bytes
  | disk stored _ _ => .onDisk stored

/-- Where the next byte goes. -/
def size : OutputFile → Nat
  | memory bytes => bytes.size
  | disk _ position held => position + held.size

/-- The stored bytes after `data` was written over those from `position` on. Zeros fill what is
missing before it. -/
def store (stored : Array UInt8) (position : Nat) (data : Array UInt8) : Array UInt8 :=
  if data.isEmpty then stored
  else
    (stored.extract 0 position).rightpad position 0 ++ data
      ++ stored.extract (position + data.size) stored.size

/-- Stores what is held back. -/
def sync : OutputFile → OutputFile
  | memory bytes => memory bytes
  | disk stored position held => disk (store stored position held) (position + held.size) #[]

/-- Bytes that do not fit behind those held back push these out, and a run as long as all that can
be held is stored at once. -/
def append (f : OutputFile) (data : Bytes) : OutputFile :=
  let length := data.length
  match f with
  | memory bytes => memory (bytes ++ data)
  | disk stored position held =>
    if held.size + length ≤ capacity ∧ length < capacity then disk stored position (held ++ data)
    else
      let stored := store stored position held
      let position := position + held.size
      if length < capacity then disk stored position data.toArray
      else disk (store stored position data.toArray) (position + length) #[]

/-- The file after what it held on disk was replaced. It goes on from where it was. -/
def replace (bytes : Array UInt8) : OutputFile → OutputFile
  | memory held => memory held
  | disk _ position held => disk bytes position held

end OutputFile

end Columnar
