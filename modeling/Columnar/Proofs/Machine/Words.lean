import Columnar.Proofs.Calls
import Mathlib.Data.List.Induction

/-! # Runs of a machine

A machine counts in words and looks things up by position. Where a sum is no word, a difference
would be negative, a shift is as wide as the word, or there is nothing at a position, the run stops
without a result; a loop that never ends has none either. -/

namespace Columnar.Machine

/-! ## Words and positions -/

/-- The sum of two words of so many bits. -/
def add (bits a b : ℕ) : Option ℕ := if a + b < 2 ^ bits then some (a + b) else none

def sub (a b : ℕ) : Option ℕ := if b ≤ a then some (a - b) else none

/-- What is shifted out of the word is lost. -/
def shiftLeft (bits a n : ℕ) : Option ℕ := if n < bits then some (a <<< n % 2 ^ bits) else none

def shiftRight (bits a n : ℕ) : Option ℕ := if n < bits then some (a >>> n) else none

section

variable {α : Type}

def index (xs : List α) (i : ℕ) : Option α := xs[i]?

/-- The items from one position up to, and without, another. -/
def slice (xs : List α) (start stop : ℕ) : Option (List α) :=
  if start ≤ stop ∧ stop ≤ xs.length then some (xs.extract start stop) else none

theorem add_eq {bits a b : ℕ} (h : a + b < 2 ^ bits) : add bits a b = some (a + b) := if_pos h

theorem sub_eq {a b : ℕ} (h : b ≤ a) : sub a b = some (a - b) := if_pos h

theorem shiftLeft_eq {bits a n : ℕ} (hn : n < bits) (h : a * 2 ^ n < 2 ^ bits) :
    shiftLeft bits a n = some (a * 2 ^ n) := by
  rw [shiftLeft, if_pos hn, Nat.shiftLeft_eq, Nat.mod_eq_of_lt h]

theorem shiftRight_eq {bits n : ℕ} (hn : n < bits) (a : ℕ) :
    shiftRight bits a n = some (a / 2 ^ n) := by
  rw [shiftRight, if_pos hn, Nat.shiftRight_eq_div_pow]

/-- What is shifted past a number has no bit in common with it. -/
theorem or_mul_two_pow {a n : ℕ} (h : a < 2 ^ n) (b : ℕ) : a ||| b * 2 ^ n = a + b * 2 ^ n := by
  rw [Nat.or_comm, Nat.add_comm, Nat.mul_comm, Nat.two_pow_add_eq_or_of_lt h]

theorem slice_eq {xs : List α} {start stop : ℕ} (hstart : start ≤ stop) (hstop : stop ≤ xs.length) :
    slice xs start stop = some (xs.extract start stop) := if_pos ⟨hstart, hstop⟩

theorem slice_take {xs : List α} {n : ℕ} (h : n ≤ xs.length) :
    slice xs 0 n = some (xs.take n) := by
  rw [slice_eq (Nat.zero_le n) h, List.extract_eq_take_drop, List.drop_zero, Nat.sub_zero]

theorem slice_drop {xs : List α} {n : ℕ} (h : n ≤ xs.length) :
    slice xs n xs.length = some (xs.drop n) := by
  rw [slice_eq h le_rfl, List.extract_eq_take_drop, List.take_of_length_le (by simp)]

/-- What is looked up position by position is the list of what is there. -/
theorem mapM_range_eq_some {f : ℕ → Option α} {xs : List α}
    (h : ∀ i x, xs[i]? = some x → f i = some x) : (List.range xs.length).mapM f = some xs := by
  induction xs using List.reverseRecOn with
  | nil => rfl
  | append_singleton xs x ih =>
      have hxs : (List.range xs.length).mapM f = some xs := ih fun i y hi => by
        obtain ⟨hlt, -⟩ := List.getElem?_eq_some_iff.mp hi
        exact h i y (by rw [List.getElem?_append_left hlt, hi])
      have hx : f xs.length = some x := h xs.length x (by simp)
      rw [List.length_append, List.length_singleton, List.range_succ, List.mapM_append, hxs,
        List.mapM_cons, hx]
      rfl

end

/-! ## Steps with a state -/

/-- Steps that answer or fail, and leave a state, unless they stop. -/
abbrev Run (σ : Type) := ExceptT Error (StateT σ Option)

section

variable {σ τ α β : Type}

theorem get_bind (f : σ → Run σ β) (s : σ) : (get >>= f) s = f s s := rfl

theorem set_bind (s' : σ) (f : PUnit → Run σ β) (s : σ) : (set s' >>= f) s = f ⟨⟩ s' := rfl

theorem lift_bind {x : Option α} {a : α} (h : x = some a) (f : α → Run σ β) :
    (liftM x >>= f) = f a := by
  subst h
  rfl

theorem bind_of_ok {x : Run σ α} {a : α} {s s' : σ} (h : x s = some (.ok a, s'))
    (f : α → Run σ β) : (x >>= f) s = f a s' := by
  have hbind : (x >>= f) s =
      (x s).bind fun (outcome, s) => ExceptT.bindCont f outcome s := rfl
  rw [hbind, h]
  rfl

theorem bind_of_error {x : Run σ α} {e : Error} {s s' : σ} (h : x s = some (.error e, s'))
    (f : α → Run σ β) : (x >>= f) s = some (.error e, s') := by
  have hbind : (x >>= f) s =
      (x s).bind fun (outcome, s) => ExceptT.bindCont f outcome s := rfl
  rw [hbind, h]
  rfl

/-- The steps, none of which stops. -/
def whole (x : EStateM Error σ α) : Run σ α := fun s => some (settle (x s))

/-- Steps behind others have to do only with what these answer and leave. -/
theorem bind_whole {x : EStateM Error σ α} {f : α → Run σ β} {g : α → EStateM Error σ β} {s : σ}
    (h : ∀ a s', x s = .ok a s' → f a s' = whole (g a) s') :
    (whole x >>= f) s = whole (x >>= g) s := by
  have hleft : (whole x >>= f) s =
      (some (settle (x s))).bind fun (outcome, s) => ExceptT.bindCont f outcome s := rfl
  have hright : whole (x >>= g) s = some (settle (EStateM.bind x g s)) := rfl
  rw [hleft, hright, EStateM.bind]
  cases hx : x s with
  | ok a s' => exact h a s' hx
  | error e s' => rfl

theorem whole_bind (x : EStateM Error σ α) (f : α → EStateM Error σ β) :
    whole (x >>= f) = whole x >>= fun a => whole (f a) :=
  funext fun _ => (bind_whole fun _ _ _ => rfl).symm

/-- A check, and the steps behind it. -/
theorem check_whole {c : Prop} [Decidable c] {e : Error} {m : Run σ α} {x : EStateM Error σ α}
    {s : σ} (h : ¬ c → m s = whole x s) :
    (if c then throw e >>= fun _ : PUnit => m else m) s =
      whole (if c then throw e >>= fun _ : PUnit => x else x) s := by
  by_cases hc : c
  · rw [if_pos hc, if_pos hc]
    rfl
  · rw [if_neg hc, if_neg hc]
    exact h hc

theorem whole_map (f : α → β) (x : EStateM Error σ α) : whole (f <$> x) = f <$> whole x := by
  rw [← bind_pure_comp, ← bind_pure_comp, whole_bind]
  rfl

theorem whole_ite {c : Prop} [Decidable c] (x y : EStateM Error σ α) :
    whole (if c then x else y) = if c then whole x else whole y := apply_ite whole c x y

end

/-! ## Outcomes -/

/-- What comes of steps without a state, unless they stop. -/
abbrev Outcome := ExceptT Error Option

section

variable {σ α β : Type}

/-- What comes of a run that starts in a state. -/
def answer (x : Run σ α) (s : σ) : Outcome α := ExceptT.mk ((x s).map Prod.fst)

/-- The run is not stopped, and this comes of it. -/
def Gives (m : Outcome α) (x : Except Error α) : Prop := m.run = some x

namespace Gives

theorem pure (a : α) : Gives (Pure.pure a) (.ok a) := rfl

theorem throw (e : Error) : Gives (throw e : Outcome α) (.error e) := rfl

theorem ofExcept (x : Except Error α) : Gives (MonadExcept.ofExcept x) x := by
  cases x <;> rfl

/-- Steps behind others have to do only with what these answer. -/
theorem bind {m : Outcome α} {x : Except Error α} {f : α → Outcome β} {g : α → Except Error β}
    (h : Gives m x) (hf : ∀ a, x = .ok a → Gives (f a) (g a)) : Gives (m >>= f) (x >>= g) := by
  obtain rfl : m = ExceptT.mk (some x) := h
  cases x with
  | ok a => exact hf a rfl
  | error e => rfl

/-- A step that answers. -/
theorem step {m : Outcome α} {a : α} {f : α → Outcome β} {x : Except Error β}
    (h : Gives m (.ok a)) (hf : Gives (f a) x) : Gives (m >>= f) x := by
  obtain rfl : m = ExceptT.mk (some (.ok a)) := h
  exact hf

theorem lift {o : Option α} {a : α} {f : α → Outcome β} {x : Except Error β} (h : o = some a)
    (hf : Gives (f a) x) : Gives (liftM o >>= f) x := by
  subst h
  exact hf

theorem ite {c : Prop} [Decidable c] {m n : Outcome α} {x y : Except Error α}
    (hm : c → Gives m x) (hn : ¬ c → Gives n y) :
    Gives (if c then m else n) (if c then x else y) := by
  split
  next h => exact hm h
  next h => exact hn h

/-- A check, and the steps behind it. -/
theorem check {c : Prop} [Decidable c] {e : Error} {m : Outcome α} {x : Except Error α}
    (h : ¬ c → Gives m x) :
    Gives (if c then MonadExcept.throw e >>= fun _ : PUnit => m else m)
      (if c then MonadExcept.throw e >>= fun _ : PUnit => x else x) :=
  ite (fun _ => rfl) h

theorem map {m : Outcome α} {x : Except Error α} (f : α → β) (h : Gives m x) :
    Gives (f <$> m) (f <$> x) := by
  obtain rfl : m = ExceptT.mk (some x) := h
  cases x <;> rfl

theorem mapM {f : α → Outcome β} {g : α → Except Error β} {xs : List α}
    (h : ∀ x ∈ xs, Gives (f x) (g x)) : Gives (xs.mapM f) (xs.mapM g) := by
  induction xs with
  | nil => exact .pure []
  | cons x xs ih =>
      rw [List.mapM_cons, List.mapM_cons]
      refine (h x (by simp)).bind fun y _ => ?_
      exact (ih fun x' hx' => h x' (by simp [hx'])).bind fun ys _ => .pure (y :: ys)

theorem forM {f : α → Outcome PUnit} {g : α → Except Error PUnit} {xs : List α}
    (h : ∀ x ∈ xs, Gives (f x) (g x)) : Gives (xs.forM f) (xs.forM g) := by
  induction xs with
  | nil => exact .pure PUnit.unit
  | cons x xs ih =>
      exact (h x (by simp)).bind fun _ _ => ih fun x' hx' => h x' (by simp [hx'])

theorem whole (x : EStateM Error σ α) (s : σ) :
    Gives (answer (Machine.whole x) s) (settle (x s)).1 := rfl

end Gives

end

end Columnar.Machine
