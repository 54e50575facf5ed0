import Columnar.Proofs.ColumnCells
import Columnar.Proofs.StoredValues

/-! # What a reader answers, and what it takes off the front

A property of all that a reader answers, alone and together with the number of bytes that it took
off. What it answers is in its stored form no longer than these bytes, which may spell a number with
more digits than it has. -/

namespace Columnar

namespace Decoder

/-! ## What is answered -/

section

variable {α β : Type} {p : Decoder α} {P : α → Prop}

/-- Whatever the reader answers has a property. -/
def Yields (p : Decoder α) (P : α → Prop) : Prop := ∀ bs a rest, p bs = .ok a rest → P a

namespace Yields

theorem pure {a : α} (h : P a) : Yields (Pure.pure a) P := by
  intro bs b rest hb
  cases hb
  exact h

theorem bind {Q : β → Prop} {f : α → Decoder β} (hp : Yields p P)
    (hf : ∀ a, P a → Yields (f a) Q) : Yields (p >>= f) Q := by
  intro bs b rest h
  obtain ⟨a, left, ha, h⟩ := bind_eq_ok h
  exact hf a (hp _ _ _ ha) _ _ _ h

end Yields

theorem yields_times (hp : Yields p P) (k : ℕ) : Yields (times k p) fun as => ∀ a ∈ as, P a := by
  induction k with
  | zero => exact .pure (by simp)
  | succ k ih =>
      rw [times_succ]
      refine hp.bind fun a ha => ih.bind fun as has => .pure ?_
      exact List.forall_mem_cons.mpr ⟨ha, has⟩

end

/-! ## What is taken off the front -/

variable {α β : Type} {p : Decoder α} {P : ℕ → α → Prop}

/-- A reader that answers has taken bytes off the front, as many as go with the answer. -/
def Consumes (p : Decoder α) (P : ℕ → α → Prop) : Prop :=
  ∀ bs a rest, p bs = .ok a rest → ∃ n, bs.length = n + rest.length ∧ P n a

namespace Consumes

theorem pure {a : α} (h : P 0 a) : Consumes (Pure.pure a) P := by
  intro bs b rest hb
  cases hb
  exact ⟨0, (Nat.zero_add _).symm, h⟩

theorem fail {e : Error} : Consumes (throw e) P := by
  intro bs a rest h
  cases h

theorem throw_bind {e : Error} {f : PUnit → Decoder α} : Consumes (throw e >>= f) P := by
  intro bs a rest h
  cases h

theorem bind {Q : ℕ → β → Prop} {f : α → Decoder β} (hp : Consumes p P)
    (hf : ∀ a n, P n a → Consumes (f a) fun m b => Q (n + m) b) : Consumes (p >>= f) Q := by
  intro bs b rest h
  obtain ⟨a, left, ha, hb⟩ := bind_eq_ok h
  obtain ⟨n, hn, hP⟩ := hp _ _ _ ha
  obtain ⟨m, hm, hQ⟩ := hf a n hP _ _ _ hb
  exact ⟨n + m, by omega, hQ⟩

/-- The last step of a reader takes nothing off. -/
theorem bind_pure {Q : ℕ → β → Prop} {f : α → β} (hp : Consumes p P)
    (h : ∀ n a, P n a → Q n (f a)) : Consumes (p >>= fun a => Pure.pure (f a)) Q :=
  hp.bind fun a n hP => .pure (h n a hP)

theorem map {Q : ℕ → β → Prop} {f : α → β} (hp : Consumes p P)
    (h : ∀ n a, P n a → Q n (f a)) : Consumes (f <$> p) Q := by
  rw [map_eq_pure_bind]
  exact hp.bind_pure h

theorem ite {c : Prop} [Decidable c] {q : Decoder α} (hp : c → Consumes p P)
    (hq : ¬ c → Consumes q P) : Consumes (if c then p else q) P := by
  split
  next h => exact hp h
  next h => exact hq h

/-- A check, and the steps behind it. -/
theorem check {c : Prop} [Decidable c] {e : Error} (h : ¬ c → Consumes p P) :
    Consumes (if c then throw e >>= fun _ : PUnit => p else p) P :=
  .ite (fun _ => .throw_bind) h

theorem mono {Q : ℕ → α → Prop} (hp : Consumes p P) (h : ∀ n a, P n a → Q n a) :
    Consumes p Q := by
  intro bs a rest hrun
  obtain ⟨n, hn, hP⟩ := hp _ _ _ hrun
  exact ⟨n, hn, h n a hP⟩

theorem and_yields {R : α → Prop} (hp : Consumes p P) (h : Yields p R) :
    Consumes p fun n a => P n a ∧ R a := by
  intro bs a rest hrun
  obtain ⟨n, hn, hP⟩ := hp _ _ _ hrun
  exact ⟨n, hn, hP, h _ _ _ hrun⟩

theorem yields {R : α → Prop} (hp : Consumes p P) (h : ∀ n a, P n a → R a) : Yields p R := by
  intro bs a rest hrun
  obtain ⟨n, -, hP⟩ := hp _ _ _ hrun
  exact h n a hP

end Consumes

/-! ## Parts of all formats -/

theorem consumes_take (k : ℕ) (what : String) :
    Consumes (take k what) fun n bs => n = k ∧ bs.length = k := by
  intro bs found rest h
  rcases Nat.lt_or_ge bs.length k with hlt | hle
  · rw [take_eq_error hlt] at h
    cases h
  · rw [take_eq_ok hle] at h
    cases h
    rw [List.length_drop]
    exact ⟨k, by omega, rfl, List.length_take_of_le hle⟩

theorem consumes_byte (what : String) : Consumes (byte what) fun n _ => n = 1 := by
  intro bs b rest h
  cases bs with
  | nil => cases h
  | cons b' bs =>
      cases h
      exact ⟨1, by simp [Nat.add_comm], rfl⟩

theorem consumes_word (k : ℕ) (what : String) : Consumes (word k what) fun n _ => n = k :=
  (consumes_take k what).bind_pure fun _ _ h => h.1

theorem consumes_word64 (what : String) : Consumes (word64 what) fun n _ => n = 8 :=
  (consumes_word 8 what).bind_pure fun _ _ h => h

theorem consumes_flag (what : String) : Consumes (flag what) fun n _ => n = 1 :=
  (consumes_byte what).bind fun _ _ hn =>
    .ite (fun _ => .pure hn) fun _ => .ite (fun _ => .pure hn) fun _ => .fail

theorem consumes_named (what : String) (ofId? : UInt8 → Option α) (unknown : UInt8 → Corruption) :
    Consumes (named what ofId? unknown) fun n _ => n = 1 := by
  apply (consumes_byte what).bind
  intro b n hn
  cases ofId? b with
  | some a => exact .pure hn
  | none => exact .fail

theorem consumes_remaining : Consumes remaining fun n _ => n = 0 := by
  intro bs left rest h
  cases h
  exact ⟨0, (Nat.zero_add _).symm, rfl⟩

theorem consumes_ofExcept {x : Except Error α} (h : ∀ a, x = .ok a → P 0 a) :
    Consumes (ofExcept x) P := by
  intro bs a rest hrun
  cases x with
  | error e => cases hrun
  | ok b =>
      cases hrun
      exact ⟨0, (Nat.zero_add _).symm, h _ rfl⟩

theorem consumes_times {encode : α → Bytes} (hp : Consumes p fun n a => (encode a).length ≤ n)
    (k : ℕ) : Consumes (times k p) fun n as => as.length = k ∧ (as.flatMap encode).length ≤ n := by
  induction k with
  | zero => exact .pure ⟨rfl, le_rfl⟩
  | succ k ih =>
      rw [times_succ]
      apply hp.bind
      intro a n ha
      apply ih.bind_pure
      rintro m as ⟨hlen, has⟩
      rw [List.length_cons, List.flatMap_cons, List.length_append]
      exact ⟨congrArg (· + 1) hlen, Nat.add_le_add ha has⟩

end Decoder

open Decoder (Consumes)

/-! ## Varints -/

namespace Varint

theorem length_encode_le {n k : ℕ} (hn : n < 128 ^ k) (hk : 0 < k) : (encode n).length ≤ k := by
  rw [length_encode]
  exact (size_le_iff hk).mpr hn

/-- No number up to the one that is read takes more bytes. -/
theorem consumes_decode :
    Consumes decode fun k n => ∀ m ≤ n, (encode m).length ≤ k := by
  intro bs n rest h
  obtain ⟨last, hbegins, rfl⟩ := decode_eq_ok_iff.mp h
  refine ⟨last + 1, ?_, fun m hm =>
    length_encode_le (hm.trans_lt hbegins.lt_pow) (Nat.succ_pos last)⟩
  rw [List.length_drop, Nat.add_sub_cancel' hbegins.lt_length]

/-- A varint reads as a word. -/
theorem yields_decode : Decoder.Yields decode (· < 2 ^ 64) := by
  intro bs n rest h
  obtain ⟨last, hbegins, -⟩ := decode_eq_ok_iff.mp h
  exact hbegins.lt

/-- A word keeps no more than the number that it is made of. -/
theorem toNat_word_le (n : ℕ) : (UInt64.ofNat n).toNat ≤ n := by
  rw [UInt64.toNat_ofNat']
  exact Nat.mod_le _ _

theorem consumes_decode32 : Consumes decode32 fun k n => (encode n.toNat).length ≤ k := by
  apply consumes_decode.bind
  intro n k hk
  refine .ite (fun hn => .pure ?_) fun _ => .fail
  rw [UInt32.toNat_ofNat_of_lt' hn]
  exact hk n le_rfl

end Varint

/-! ## Pointers -/

namespace Pointer

theorem consumes_decode : Consumes decode fun k p => p.encode.length ≤ k := by
  apply Varint.consumes_decode.bind
  intro offset n hoffset
  apply Varint.consumes_decode32.bind_pure
  intro m size hsize
  rw [encode, List.length_append]
  exact Nat.add_le_add (hoffset _ (Varint.toNat_word_le offset)) hsize

theorem consumes_decodeOptional (what : String) :
    Consumes (decodeOptional what) fun k p => (encodeOptional p).length ≤ k := by
  apply (Decoder.consumes_flag what).bind
  rintro found n rfl
  refine .ite (fun _ => ?_) fun _ => .pure le_rfl
  apply consumes_decode.bind_pure
  intro m p hp
  rw [encodeOptional, List.length_cons]
  omega

end Pointer

/-! ## Values -/

namespace Field

theorem consumes_wordOf (w k : ℕ) (what : String) : Consumes (wordOf w k what) fun n _ => n = k :=
  (Decoder.consumes_word k what).bind_pure fun _ _ h => h

/-- What a field reads is a value of its kind. -/
theorem consumes_decode (f : Field) :
    Consumes f.decode fun n v => v.kind = f.type.kind ∧ v.encode.length ≤ n := by
  obtain ⟨type, length⟩ := f
  have hword : ∀ {w : ℕ} (k : ℕ) {make : BitVec w → Value} {kind : Kind},
      (∀ n, (make n).kind = kind ∧ (make n).encode.length = k) →
        Consumes (do return make (← wordOf w k type.name)) fun n v =>
          v.kind = kind ∧ v.encode.length ≤ n := fun k make kind hmake =>
    (consumes_wordOf _ k _).bind_pure fun _ n hn => ⟨(hmake n).1, by rw [(hmake n).2, hn]⟩
  have hstring : Consumes
      (do let n ← Varint.decode; return Value.bytes (← Decoder.take n type.name))
      fun n v => v.kind = Kind.bytes ∧ v.encode.length ≤ n := by
    apply Varint.consumes_decode.bind
    intro size n hsize
    apply (Decoder.consumes_take size _).bind_pure
    rintro m bs ⟨rfl, hlen⟩
    refine ⟨rfl, ?_⟩
    rw [Value.encode, List.length_append, hlen]
    exact Nat.add_le_add_right (hsize m le_rfl) m
  cases type with
  | bool =>
      apply (Decoder.consumes_byte _).bind
      rintro b n rfl
      exact .ite (fun _ => .pure ⟨rfl, le_rfl⟩) fun _ =>
        .ite (fun _ => .pure ⟨rfl, le_rfl⟩) fun _ => .fail
  | tinyint => exact hword 1 fun n => ⟨rfl, Bytes.length_little ..⟩
  | smallint => exact hword 2 fun n => ⟨rfl, Bytes.length_little ..⟩
  | int => exact hword 4 fun n => ⟨rfl, Bytes.length_little ..⟩
  | bigint => exact hword 8 fun n => ⟨rfl, Bytes.length_little ..⟩
  | largeint => exact hword 16 fun n => ⟨rfl, Bytes.length_little ..⟩
  | float => exact hword 4 fun n => ⟨rfl, Bytes.length_little ..⟩
  | double => exact hword 8 fun n => ⟨rfl, Bytes.length_little ..⟩
  | date => exact hword 4 fun n => ⟨rfl, Bytes.length_little ..⟩
  | datetime => exact hword 8 fun n => ⟨rfl, Bytes.length_little ..⟩
  | decimal =>
      apply (consumes_wordOf 64 8 _).bind
      rintro integer n rfl
      apply (consumes_wordOf 32 4 _).bind_pure
      rintro m fraction rfl
      exact ⟨rfl, by simp [Value.encode]⟩
  | char => exact hstring
  | varchar => exact hstring

/-- The length of a string that a field reads is a varint. -/
theorem yields_short (f : Field) :
    Decoder.Yields f.decode fun v => ∀ bs, v = .bytes bs → bs.length < 2 ^ 64 := by
  rintro input _ rest h bs rfl
  obtain ⟨_, -, hkind, -⟩ := consumes_decode f _ _ _ h
  have hread : (do let n ← Varint.decode; return Value.bytes (← Decoder.take n f.type.name))
      input = .ok (.bytes bs) rest := by
    obtain ⟨type, length⟩ := f
    cases type <;> first | exact h | cases hkind
  obtain ⟨n, _, hn, hread⟩ := bind_eq_ok hread
  obtain ⟨found, _, htake, hread⟩ := bind_eq_ok hread
  cases hread
  obtain ⟨_, -, -, hlen⟩ := Decoder.consumes_take _ _ _ _ _ htake
  exact hlen ▸ Varint.yields_decode _ _ _ hn

end Field

/-! ## Parts of pages -/

namespace Page

/-- What is unpacked are numbers of the width. -/
theorem consumes_takeBits (w count : ℕ) :
    Consumes (takeBits w count) fun n ds =>
      n = bytesFor (count * w) ∧ ds.length = count ∧ ∀ d ∈ ds, d < 2 ^ w := by
  refine .ite (fun _ => .fail) fun _ => .ite (fun hzero => .pure ?_) fun _ =>
    .ite (fun _ => .fail) fun _ => ?_
  · subst hzero
    exact ⟨by simp [bytesFor], List.length_replicate, by simp⟩
  · apply (Decoder.consumes_take _ _).bind_pure
    rintro n packed ⟨hn, -⟩
    rw [unpack_eq]
    exact ⟨hn, length_lowDigits .., fun d hd => lt_of_mem_lowDigits hd⟩

theorem consumes_entry :
    Consumes entry fun n bs => (Varint.encode bs.length ++ bs).length ≤ n := by
  apply Varint.consumes_decode.bind
  intro size n hsize
  apply (Decoder.consumes_take size _).mono
  rintro m bs ⟨rfl, rfl⟩
  rw [List.length_append]
  exact Nat.add_le_add_right (hsize _ le_rfl) _

/-- The length of an entry is a varint. -/
theorem yields_entry : Decoder.Yields entry (List.length · < 2 ^ 64) :=
  Varint.yields_decode.bind fun size hsize =>
    (Decoder.consumes_take size _).yields fun _ _ hlen => hlen.2 ▸ hsize

end Page

end Columnar
