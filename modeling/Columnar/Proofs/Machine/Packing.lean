import Columnar.Proofs.Machine.Pages
import Mathlib.Algebra.Order.Floor.Div

/-! # Numbers as a machine packs them

Numbers are put one above the other into a word of 128 bits, which gives up its whole bytes before
the next number comes. The word has room for every number, and every bit of it ends up in its place
in the bytes. -/

namespace Columnar.Machine

/-- The word with its pending bits, and the bytes that are written, last first. -/
structure Packer where
  acc : ℕ := 0
  bits : ℕ := 0
  written : Bytes := []

namespace Packer

/-- Puts a number of `width` bits above those that are pending. -/
def gather (width : ℕ) (p : Packer) (v : ℕ) : Option Packer := do
  let part ← shiftLeft 128 v p.bits
  let bits ← add 32 p.bits width
  return { p with acc := p.acc ||| part, bits }

/-- Writes the low byte of the word until fewer than eight bits are pending. -/
def flush (p : Packer) : Option Packer :=
  if 8 ≤ p.bits then do
    let acc ← shiftRight 128 p.acc 8
    let _ ← sub p.bits 8
    flush ⟨acc, p.bits - 8, UInt8.ofNat p.acc :: p.written⟩
  else return p
termination_by p.bits

def put (width : ℕ) (p : Packer) (v : ℕ) : Option Packer := do
  let p ← gather width p v
  flush p

/-- The bits that are left over take one more byte. -/
def finish (p : Packer) : Bytes :=
  (if 0 < p.bits then UInt8.ofNat p.acc :: p.written else p.written).reverse

end Packer

/-- Numbers of no bits are not looked at. -/
def pack (width : ℕ) (vs : List ℕ) : Option Bytes :=
  if width = 0 then return []
  else do
    let p ← vs.foldlM (Packer.put width) {}
    return p.finish

namespace Packer

/-- No bit of the numbers `vs` is lost: as many are written or pending as there are, the word has
room for those that are pending, and the bytes with the word above them spell the numbers. -/
structure Keeps (width : ℕ) (vs : List ℕ) (p : Packer) : Prop where
  count : 8 * p.written.length + p.bits = width * vs.length
  room : p.bits ≤ 128
  pending : p.acc < 2 ^ p.bits
  spells : Bytes.toNat p.written.reverse + 256 ^ p.written.length * p.acc =
    Nat.ofDigits (2 ^ width) vs

variable {width : ℕ} {vs : List ℕ} {p : Packer}

theorem Keeps.empty (width : ℕ) : Keeps width [] {} :=
  ⟨rfl, by norm_num, by norm_num, rfl⟩

theorem Keeps.gather (h : p.Keeps width vs) (hwidth : width ≤ 64) (hbits : p.bits < 8) {v : ℕ}
    (hv : v < 2 ^ width) : ∃ q, p.gather width v = some q ∧ q.Keeps width (vs ++ [v]) := by
  have hsum : p.acc + v * 2 ^ p.bits < 2 ^ (p.bits + width) :=
    Page.add_mul_two_pow_lt h.pending hv
  have hroom : 2 ^ (p.bits + width) ≤ 2 ^ 128 := Nat.pow_le_pow_right (by norm_num) (by omega)
  have hgather : p.gather width v =
      some ⟨p.acc + v * 2 ^ p.bits, p.bits + width, p.written⟩ := by
    rw [Packer.gather, shiftLeft_eq (by omega) (by omega), add_eq (by omega)]
    simp only [Option.bind_eq_bind, Option.bind_some, or_mul_two_pow h.pending]
    rfl
  refine ⟨_, hgather, ?_, ?_, hsum, ?_⟩
  · have hcount := h.count
    rw [List.length_append, List.length_singleton, Nat.mul_succ, ← hcount, Nat.add_assoc]
  · change p.bits + width ≤ 128
    omega
  · -- The new digit stands above all bits so far, those that are written and those that are not.
    have hplace : 256 ^ p.written.length * 2 ^ p.bits = (2 ^ width) ^ vs.length := by
      rw [Page.bytes_mul_two_pow, h.count, pow_mul]
    calc
      _ = Bytes.toNat p.written.reverse + 256 ^ p.written.length * p.acc +
            256 ^ p.written.length * 2 ^ p.bits * v := by ring
      _ = Nat.ofDigits (2 ^ width) vs + (2 ^ width) ^ vs.length * v := by
        rw [h.spells, hplace]
      _ = Nat.ofDigits (2 ^ width) (vs ++ [v]) := by
        rw [Nat.ofDigits_append, Nat.ofDigits_singleton]

/-- The byte that is written is the one that is shifted out of the word. -/
theorem Keeps.write (h : p.Keeps width vs) (hbits : 8 ≤ p.bits) :
    Keeps width vs ⟨p.acc / 2 ^ 8, p.bits - 8, UInt8.ofNat p.acc :: p.written⟩ := by
  have hcount := h.count
  have hroom := h.room
  refine ⟨?_, ?_, ?_, ?_⟩
  · simp only [List.length_cons]
    omega
  · change p.bits - 8 ≤ 128
    omega
  · apply Nat.div_lt_of_lt_mul
    rw [← pow_add, Nat.add_sub_of_le hbits]
    exact h.pending
  · have hlow : Bytes.toNat [UInt8.ofNat p.acc] + 2 ^ 8 * (p.acc / 2 ^ 8) = p.acc := by
      have hbyte : (UInt8.ofNat p.acc).toNat = p.acc % 2 ^ 8 := UInt8.toNat_ofNat'
      rw [Bytes.toNat, Bytes.toNat, hbyte]
      omega
    calc
      _ = Bytes.toNat p.written.reverse + 256 ^ p.written.length *
            (Bytes.toNat [UInt8.ofNat p.acc] + 2 ^ 8 * (p.acc / 2 ^ 8)) := by
        simp only [List.reverse_cons, List.length_cons, Bytes.toNat_append, List.length_reverse]
        ring
      _ = Nat.ofDigits (2 ^ width) vs := by rw [hlow, h.spells]

theorem Keeps.flush (h : p.Keeps width vs) :
    ∃ q, p.flush = some q ∧ q.Keeps width vs ∧ q.bits < 8 := by
  induction hbits : p.bits using Nat.strong_induction_on generalizing p with
  | h bits ih =>
      subst hbits
      rw [Packer.flush]
      split
      next hfull =>
          rw [shiftRight_eq (by norm_num), sub_eq hfull]
          exact ih (p.bits - 8) (by omega) (h.write hfull) rfl
      next hfew => exact ⟨p, rfl, h, by omega⟩

theorem Keeps.put (h : p.Keeps width vs) (hwidth : width ≤ 64) (hbits : p.bits < 8) {v : ℕ}
    (hv : v < 2 ^ width) :
    ∃ q, p.put width v = some q ∧ q.Keeps width (vs ++ [v]) ∧ q.bits < 8 := by
  obtain ⟨q, hq, hkeeps⟩ := h.gather hwidth hbits hv
  rw [Packer.put, hq]
  exact hkeeps.flush

/-- Number by number, nothing is lost on the way. -/
theorem keeps_foldlM (hwidth : width ≤ 64) (hvs : ∀ v ∈ vs, v < 2 ^ width) :
    ∃ p, vs.foldlM (Packer.put width) {} = some p ∧ p.Keeps width vs ∧ p.bits < 8 := by
  induction vs using List.reverseRecOn with
  | nil => exact ⟨{}, rfl, .empty width, by norm_num⟩
  | append_singleton vs v ih =>
      obtain ⟨p, hp, hkeeps, hbits⟩ := ih fun u hu => hvs u (by simp [hu])
      obtain ⟨q, hq, hput⟩ := hkeeps.put hwidth hbits (hvs v (by simp))
      refine ⟨q, ?_, hput⟩
      rw [List.foldlM_append, hp]
      simpa using hq

/-- The bytes of a packer with fewer than eight pending bits spell the numbers. -/
theorem Keeps.finish (h : p.Keeps width vs) (hbits : p.bits < 8) :
    p.finish.length = Page.bytesFor (vs.length * width) ∧
      Bytes.toNat p.finish = Nat.ofDigits (2 ^ width) vs := by
  have hcount := h.count
  have hspells := h.spells
  rw [Page.bytesFor, Nat.mul_comm, ← hcount, Packer.finish]
  split
  next hmore =>
      have hbyte : (UInt8.ofNat p.acc).toNat = p.acc := by
        have hle : 2 ^ p.bits ≤ 2 ^ 8 := Nat.pow_le_pow_right (by norm_num) (by omega)
        have hpending := h.pending
        rw [UInt8.toNat_ofNat']
        omega
      constructor
      · simp only [List.length_reverse, List.length_cons]
        omega
      · rw [List.reverse_cons, Bytes.toNat_append, List.length_reverse, Bytes.toNat, Bytes.toNat,
          hbyte, ← hspells]
        ring
  next hnone =>
      have hzero : p.bits = 0 := by omega
      have hacc : p.acc = 0 := by simpa [hzero] using h.pending
      constructor
      · rw [List.length_reverse]
        omega
      · rw [← hspells, hacc, Nat.mul_zero, Nat.add_zero]

end Packer

/-- The bytes of a machine are those of packing. -/
theorem pack_eq {width : ℕ} {vs : List ℕ} (hwidth : width ≤ 64) (hvs : ∀ v ∈ vs, v < 2 ^ width) :
    pack width vs = some (Page.pack width vs) := by
  rw [pack]
  split
  next hzero =>
      rw [hzero, Page.pack_zero]
      rfl
  next =>
      obtain ⟨p, hp, hkeeps, hbits⟩ := Packer.keeps_foldlM hwidth hvs
      obtain ⟨hlength, hspells⟩ := hkeeps.finish hbits
      have hbytes : p.finish = Page.pack width vs :=
        Bytes.toNat_inj (by rw [hlength, Page.length_pack]) (by rw [hspells, Page.toNat_pack hvs])
      rw [hp]
      exact congrArg some hbytes

/-- Numbers of at most 64 bits take as many bytes as their bits, rounded up. The word of the machine
that packs them keeps every bit, when a number comes and when the whole bytes are written. From the
bytes and whatever stands behind them the numbers come back, and what stands behind is left. The
bits of a run are counted in a word of 64 bits, as are those of every run that memory can hold: more
of them would take 2 ^ 61 bytes. -/
theorem packing_keeps_every_bit {width : ℕ} {vs : List ℕ} (hwidth : width ≤ 64)
    (hvs : ∀ v ∈ vs, v < 2 ^ width) :
    (Page.pack width vs).length = vs.length * width ⌈/⌉ 8 ∧
      pack width vs = some (Page.pack width vs) ∧
      (∀ before v, before ++ [v] <+: vs → ∃ p q r,
        before.foldlM (Packer.put width) {} = some p ∧ p.gather width v = some q ∧
          q.flush = some r ∧ p.Keeps width before ∧ q.Keeps width (before ++ [v]) ∧
          r.Keeps width (before ++ [v])) ∧
      (vs.length * width < 2 ^ 64 → ∀ rest,
        Page.takeBits width vs.length (Page.pack width vs ++ rest) = .ok vs rest ∧
          takeBits width vs.length (Page.pack width vs ++ rest) = some (.ok vs, rest)) := by
  refine ⟨Page.length_pack width vs, pack_eq hwidth hvs, ?_, ?_⟩
  · intro before v hbefore
    have hmem : ∀ u ∈ before ++ [v], u < 2 ^ width := fun u hu => hvs u (hbefore.subset hu)
    obtain ⟨p, hp, hkeeps, hbits⟩ :=
      Packer.keeps_foldlM hwidth fun u hu => hmem u (List.mem_append_left [v] hu)
    obtain ⟨q, hq, hgather⟩ := hkeeps.gather hwidth hbits (hmem v (by simp))
    obtain ⟨r, hr, hflush, -⟩ := hgather.flush
    exact ⟨p, q, r, hp, hq, hr, hkeeps, hgather, hflush⟩
  · intro hrun rest
    have hreads := Page.reads_pack hwidth hrun hvs rest
    refine ⟨hreads, ?_⟩
    rw [takeBits_eq, whole, hreads]
    rfl

/-- None of three numbers of 13 bits ends where a byte does, and one more byte stands behind. -/
theorem packing_keeps_every_bit_straddling :
    let vs := [8191, 0, 4097]
    let bytes : Bytes := [255, 31, 0, 4, 64]
    (∀ v ∈ vs, v < 2 ^ 13) ∧ Page.pack 13 vs = bytes ∧ bytes.length = vs.length * 13 ⌈/⌉ 8 ∧
      pack 13 vs = some bytes ∧
      (∃ p q r, [8191, 0].foldlM (Packer.put 13) {} = some p ∧ p.gather 13 4097 = some q ∧
        q.flush = some r ∧ p.Keeps 13 [8191, 0] ∧ q.Keeps 13 vs ∧ r.Keeps 13 vs) ∧
      Page.takeBits 13 3 (bytes ++ [7]) = .ok vs [7] ∧
      takeBits 13 3 (bytes ++ [7]) = some (.ok vs, [7]) := by
  intro vs bytes
  have hvs : ∀ v ∈ vs, v < 2 ^ 13 := by decide
  obtain ⟨hlength, hpack, hkeeps, hreads⟩ := packing_keeps_every_bit (by norm_num) hvs
  obtain ⟨hread, hrun⟩ := hreads (by decide) [7]
  have hbytes : Page.pack 13 vs = bytes := by decide
  rw [hbytes] at hlength hpack hread hrun
  exact ⟨hvs, hbytes, hlength, hpack, hkeeps [8191, 0] 4097 (by decide), hread, hrun⟩

end Columnar.Machine
