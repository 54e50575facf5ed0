import Columnar.Page.Pointer
import Columnar.Proofs.Varints

/-! # Reading what was written

A reader reads a byte string as a value if it does so whatever comes behind. Such readers compose
as the byte strings do. -/

namespace Columnar

namespace Bytes

theorem toNat_lt (bs : Bytes) : toNat bs < 256 ^ bs.length := by
  induction bs with
  | nil => simp [toNat]
  | cons b bs ih =>
      have hb : b.toNat < 256 := b.toNat_lt
      simp only [toNat, List.length_cons, pow_succ]
      omega

/-- A word that fits its bytes comes back. -/
theorem toNat_little_of_lt {k n : ℕ} (h : n < 256 ^ k) : toNat (little k n) = n := by
  rw [toNat_little, Nat.mod_eq_of_lt h]

/-- The number that bytes spell is stored as these bytes. -/
theorem little_toNat (bs : Bytes) : little bs.length (toNat bs) = bs := by
  induction bs with
  | nil => rfl
  | cons b bs ih =>
      have hb : b.toNat < 256 := b.toNat_lt
      have hlow : UInt8.ofNat (b.toNat + 256 * toNat bs) = b := by
        apply UInt8.toNat_inj.mp
        rw [UInt8.toNat_ofNat']
        omega
      have hhigh : (b.toNat + 256 * toNat bs) / 256 = toNat bs := by omega
      rw [List.length_cons, toNat, little, hlow, hhigh, ih]

theorem toNat_inj {xs ys : Bytes} (hlen : xs.length = ys.length) (h : xs.toNat = ys.toNat) :
    xs = ys := by
  rw [← little_toNat xs, ← little_toNat ys, hlen, h]

theorem toNat_append (xs ys : Bytes) :
    toNat (xs ++ ys) = toNat xs + 256 ^ xs.length * toNat ys := by
  induction xs with
  | nil => simp [toNat]
  | cons x xs ih =>
      simp only [List.cons_append, toNat, ih, List.length_cons, pow_succ]
      ring

/-- Parts of at least `k` bytes each are together at least `k` times as long as there are parts. -/
theorem mul_length_le_flatMap {α : Type} {g : α → Bytes} {k : ℕ} {xs : List α}
    (h : ∀ x ∈ xs, k ≤ (g x).length) : k * xs.length ≤ (xs.flatMap g).length := by
  induction xs with
  | nil => simp
  | cons x xs ih =>
      have hx := h x (by simp)
      have hxs := ih fun y hy => h y (by simp [hy])
      simp only [List.flatMap_cons, List.length_append, List.length_cons, Nat.mul_succ]
      omega

end Bytes

/-! ## Steps with a state -/

section

variable {ε σ α β : Type}

theorem get_bind (f : σ → EStateM ε σ β) (s : σ) : (get >>= f) s = f s s := rfl

theorem set_bind (s' : σ) (f : PUnit → EStateM ε σ β) (s : σ) : (set s' >>= f) s = f ⟨⟩ s' := rfl

theorem throw_bind (e : ε) (f : α → EStateM ε σ β) (s : σ) :
    ((throw e : EStateM ε σ α) >>= f) s = .error e s := rfl

theorem pure_apply (a : α) (s : σ) : (pure a : EStateM ε σ α) s = .ok a s := rfl

end

/-- Steps that succeed together succeed one after the other. -/
theorem bind_eq_ok {ε σ α β : Type} {x : EStateM ε σ α} {f : α → EStateM ε σ β} {s s' : σ} {b : β}
    (h : (x >>= f) s = .ok b s') : ∃ a s₁, x s = .ok a s₁ ∧ f a s₁ = .ok b s' := by
  change EStateM.bind x f s = _ at h
  rw [EStateM.bind] at h
  split at h
  next a s₁ hx => exact ⟨a, s₁, hx, h⟩
  next => cases h

/-- A check that was passed, and the steps behind it. -/
theorem check_eq_ok {ε σ α : Type} {c : Prop} [Decidable c] {e : ε} {x : EStateM ε σ α} {s s' : σ}
    {a : α} (h : (if c then throw e >>= fun _ : PUnit => x else x) s = .ok a s') :
    ¬ c ∧ x s = .ok a s' := by
  split at h
  next => cases h
  next hc => exact ⟨hc, h⟩

/-! ## Steps without a state -/

/-- The steps behind one that succeeds go on with its result. -/
theorem bind_of_eq_ok {ε α β : Type} {x : Except ε α} {f : α → Except ε β} {a : α} {r : Except ε β}
    (hx : x = .ok a) (hf : f a = r) : (x >>= f) = r := by
  rw [hx]
  exact hf

theorem of_bind_eq_ok {ε α β : Type} {x : Except ε α} {f : α → Except ε β} {b : β}
    (h : (x >>= f) = .ok b) : ∃ a, x = .ok a ∧ f a = .ok b := by
  cases x with
  | error e => cases h
  | ok a => exact ⟨a, rfl, h⟩

theorem of_check_eq_ok {ε α : Type} {c : Prop} [Decidable c] {e : ε} {x : Except ε α} {a : α}
    (h : (if c then throw e >>= fun _ : PUnit => x else x) = .ok a) : ¬ c ∧ x = .ok a := by
  split at h
  next => cases h
  next hc => exact ⟨hc, h⟩

namespace Decoder

variable {α β : Type}

/-- The reader takes exactly `bs` off the front, and reads it as `a`. -/
def Reads (p : Decoder α) (bs : Bytes) (a : α) : Prop :=
  ∀ rest, p (bs ++ rest) = .ok a rest

theorem Reads.run {p : Decoder α} {bs : Bytes} {a : α} (h : Reads p bs a) : p bs = .ok a [] := by
  simpa using h []

theorem Reads.pure (a : α) : Reads (pure a) [] a := fun _ => rfl

theorem Reads.bind {p : Decoder α} {f : α → Decoder β} {xs ys : Bytes} {a : α} {b : β}
    (hp : Reads p xs a) (hf : Reads (f a) ys b) : Reads (p >>= f) (xs ++ ys) b := by
  intro rest
  change EStateM.bind p f (xs ++ ys ++ rest) = _
  rw [List.append_assoc, EStateM.bind, hp]
  exact hf rest

/-- A reader of one byte comes first. -/
theorem Reads.bind_cons {p : Decoder α} {f : α → Decoder β} {x : UInt8} {ys : Bytes} {a : α} {b : β}
    (hp : Reads p [x] a) (hf : Reads (f a) ys b) : Reads (p >>= f) (x :: ys) b :=
  hp.bind hf

/-- The last step of a reader takes nothing off. -/
theorem Reads.bind_pure {p : Decoder α} {f : α → Decoder β} {xs : Bytes} {a : α} {b : β}
    (hp : Reads p xs a) (hf : f a = Pure.pure b) : Reads (p >>= f) xs b := by
  have h : Reads (p >>= f) (xs ++ []) b := hp.bind (hf ▸ Reads.pure b)
  simpa using h

theorem Reads.map {p : Decoder α} {xs : Bytes} {a : α} (f : α → β) (hp : Reads p xs a) :
    Reads (f <$> p) xs (f a) := by
  intro rest
  change EStateM.map f p (xs ++ rest) = _
  rw [EStateM.map, hp]

theorem reads_take (bs : Bytes) (what : String) : Reads (take bs.length what) bs bs :=
  fun _ => take_append

theorem reads_byte (b : UInt8) (what : String) : Reads (byte what) [b] b := fun _ => rfl

/-- A number that is too large for its bytes reads as its low part. -/
theorem reads_word_mod (k n : ℕ) (what : String) :
    Reads (word k what) (Bytes.little k n) (n % 256 ^ k) := by
  have hk := reads_take (Bytes.little k n) what
  rw [Bytes.length_little] at hk
  exact hk.bind_pure (by rw [Bytes.toNat_little])

theorem reads_word {k n : ℕ} (h : n < 256 ^ k) (what : String) :
    Reads (word k what) (Bytes.little k n) n := by
  have hk := reads_word_mod k n what
  rwa [Nat.mod_eq_of_lt h] at hk

theorem reads_word32 (n : UInt32) (what : String) :
    Reads (word32 what) (Bytes.little 4 n.toNat) n :=
  (reads_word n.toNat_lt what).bind_pure (by simp)

theorem reads_word64 (n : UInt64) (what : String) :
    Reads (word64 what) (Bytes.little 8 n.toNat) n :=
  (reads_word n.toNat_lt what).bind_pure (by simp)

theorem reads_flag (b : Bool) (what : String) : Reads (flag what) [if b then 1 else 0] b := by
  cases b <;> exact (reads_byte _ what).bind_pure rfl

theorem reads_named {what : String} {ofId? : UInt8 → Option α} {unknown : UInt8 → Corruption}
    {b : UInt8} {a : α} (h : ofId? b = some a) : Reads (named what ofId? unknown) [b] a :=
  (reads_byte b what).bind_pure (by simp [h])

theorem repeatOnto_succ (p : Decoder α) (n : ℕ) (done : List α) :
    repeatOnto p (n + 1) done = p >>= fun a => repeatOnto p n (a :: done) := by
  funext bs
  change repeatOnto p (n + 1) done bs = EStateM.bind p _ bs
  simp only [repeatOnto, EStateM.bind]
  cases p bs <;> rfl

/-- What is read goes behind what was read before. -/
theorem repeatOnto_eq (p : Decoder α) (n : ℕ) (done : List α) :
    repeatOnto p n done = times n p >>= fun as => pure (done.reverse ++ as) := by
  induction n generalizing done with
  | zero =>
      have hzero : ∀ done, repeatOnto p 0 done = pure done.reverse := fun _ => rfl
      simp [times, hzero]
  | succ n ih =>
      simp only [times, repeatOnto_succ, bind_assoc]
      congr 1
      funext a
      rw [ih (a :: done), ih [a], bind_assoc]
      simp

/-- Repeated runs begin with one. -/
theorem times_succ (p : Decoder α) (n : ℕ) :
    times (n + 1) p = p >>= fun a => times n p >>= fun as => pure (a :: as) := by
  rw [times, repeatOnto_succ]
  congr 1
  funext a
  exact repeatOnto_eq p n [a]

theorem reads_times {p : Decoder α} {encode : α → Bytes} {as : List α}
    (h : ∀ a ∈ as, Reads p (encode a) a) : Reads (times as.length p) (as.flatMap encode) as := by
  induction as with
  | nil => exact Reads.pure []
  | cons a as ih =>
      rw [List.forall_mem_cons] at h
      rw [List.length_cons, times_succ, List.flatMap_cons]
      exact h.1.bind ((ih h.2).bind_pure rfl)

/-- A reader that looks at how much is left sees at least what it is going to take. -/
theorem Reads.remaining {f : ℕ → Decoder β} {xs : Bytes} {b : β}
    (h : ∀ left, xs.length ≤ left → Reads (f left) xs b) :
    Reads (remaining >>= f) xs b := by
  intro rest
  have hlen : xs.length ≤ (xs ++ rest).length := by simp
  exact h _ hlen rest

/-- The steps behind a reader see what comes behind its bytes. -/
theorem Reads.bind_append {p : Decoder α} {f : α → Decoder β} {xs : Bytes} {a : α}
    (hp : Reads p xs a) (ys : Bytes) : (p >>= f) (xs ++ ys) = f a ys := by
  change EStateM.bind p f (xs ++ ys) = _
  rw [EStateM.bind, hp]

theorem Reads.bind_eq {p : Decoder α} {f : α → Decoder β} {xs : Bytes} {a : α}
    (hp : Reads p xs a) : (p >>= f) xs = f a [] := by
  simpa using hp.bind_append (f := f) []

end Decoder

/-! ## Varints -/

namespace Varint

open Decoder (Reads)

theorem reads_encode {n : ℕ} (h : n < 2 ^ 64) : Reads decode (encode n) n :=
  decode_encode_append h

theorem reads_encode32 (n : UInt32) : Reads decode32 (encode n.toNat) n := by
  have hn : n.toNat < 2 ^ 32 := n.toNat_lt
  apply (reads_encode (by omega)).bind_pure
  simp only [hn, if_true, UInt32.ofNat_toNat]

theorem reads_encode64 (n : UInt64) : Reads decode (encode n.toNat) n.toNat :=
  reads_encode n.toNat_lt

theorem length_encode_pos (n : ℕ) : 0 < (encode n).length := by
  rw [length_encode]
  exact size_pos n

end Varint

/-! ## Pointers -/

namespace Pointer

open Decoder (Reads)

theorem reads_encode (p : Pointer) : Reads decode p.encode p :=
  (Varint.reads_encode64 p.offset).bind
    ((Varint.reads_encode32 p.size).bind_pure (by simp))

theorem reads_encodeOptional (what : String) (p : Option Pointer) :
    Reads (decodeOptional what) (encodeOptional p) p := by
  cases p with
  | none => exact (Decoder.reads_flag false what).bind_pure rfl
  | some p => exact (Decoder.reads_flag true what).bind ((reads_encode p).bind_pure rfl)

theorem two_le_length_encode (p : Pointer) : 2 ≤ p.encode.length := by
  have ho := Varint.length_encode_pos p.offset.toNat
  have hs := Varint.length_encode_pos p.size.toNat
  rw [encode, List.length_append]
  omega

end Pointer

end Columnar
