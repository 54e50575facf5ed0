import Columnar.Proofs.Reads

/-! # Calls one after the other

What is asked of something that has a state is a list of calls. Each is answered, and the next one
meets the state that is left, be it that the call failed. -/

namespace Columnar

section

variable {κ α σ τ : Type}

/-- The answers to calls one after the other, and the state that is left. -/
def answers (answer : κ → σ → α × σ) : List κ → σ → List α × σ
  | [], s => ([], s)
  | call :: calls, s =>
    let (a, s) := answer call s
    let (as, s) := answers answer calls s
    (a :: as, s)

/-- States that stay related after each call give the same answers to all calls. -/
theorem answers_alike {R : σ → τ → Prop} {f : κ → σ → α × σ} {g : κ → τ → α × τ}
    (hstep : ∀ call s t, R s t → (f call s).1 = (g call t).1 ∧ R (f call s).2 (g call t).2)
    (calls : List κ) {s : σ} {t : τ} (h : R s t) :
    (answers f calls s).1 = (answers g calls t).1 ∧
      R (answers f calls s).2 (answers g calls t).2 := by
  induction calls generalizing s t with
  | nil => exact ⟨rfl, h⟩
  | cons call calls ih =>
      obtain ⟨hanswer, hstates⟩ := hstep call s t h
      obtain ⟨hanswers, hleft⟩ := ih hstates
      exact ⟨congrArg₂ List.cons hanswer hanswers, hleft⟩

/-- What each call keeps of the calls so far, their answers and the state, holds after all. -/
theorem answers_keep {f : κ → σ → α × σ} (Inv : List (κ × α) → σ → Prop)
    (hstep : ∀ events call s, Inv events s → Inv (events ++ [(call, (f call s).1)]) (f call s).2)
    (calls : List κ) (past : List (κ × α)) {s : σ} (h : Inv past s) :
    Inv (past ++ calls.zip (answers f calls s).1) (answers f calls s).2 := by
  induction calls generalizing past s with
  | nil => rwa [answers, List.zip_nil_left, List.append_nil]
  | cons call calls ih =>
      have hall := ih _ (hstep past call s h)
      rwa [List.append_assoc] at hall

end

section

variable {ε σ α β γ : Type}

/-- What came of a run, and the state behind it. -/
def settle : EStateM.Result ε σ α → Except ε α × σ
  | .ok a s => (.ok a, s)
  | .error e s => (.error e, s)

theorem settle_map (f : α → β) (x : EStateM ε σ α) (s : σ) :
    settle ((f <$> x) s) = ((settle (x s)).1.map f, (settle (x s)).2) := by
  change settle (EStateM.map f x s) = _
  rw [EStateM.map]
  cases x s <;> rfl

/-- The run leaves what `f` sees of the state as it was, whatever comes of it. -/
def Keeps (f : σ → γ) (x : EStateM ε σ α) : Prop := ∀ s, f (settle (x s)).2 = f s

theorem Keeps.bind {f : σ → γ} {x : EStateM ε σ α} {g : α → EStateM ε σ β} (hx : Keeps f x)
    (hg : ∀ a, Keeps f (g a)) : Keeps f (x >>= g) := by
  intro s
  have hfirst := hx s
  change f (settle (EStateM.bind x g s)).2 = f s
  rw [EStateM.bind]
  cases hrun : x s with
  | ok a s' =>
      rw [hrun] at hfirst
      exact (hg a s').trans hfirst
  | error e s' =>
      rw [hrun] at hfirst
      exact hfirst

end

end Columnar
