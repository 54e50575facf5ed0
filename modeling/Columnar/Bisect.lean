/-! Bisection: where a condition on numbers changes from true to false. -/

namespace Columnar

/-- Halves the range from `lo` to `hi` until it is empty, going on behind the middle where the
condition holds there, and before it where it does not. -/
def bisect (holds : Nat → Bool) (lo hi : Nat) : Nat :=
  if lo < hi then
    let mid := (lo + hi) / 2
    if holds mid then bisect holds (mid + 1) hi else bisect holds lo mid
  else lo
termination_by hi - lo

theorem bisect_bounds {holds : Nat → Bool} {lo hi : Nat} (h : lo ≤ hi) :
    lo ≤ bisect holds lo hi ∧ bisect holds lo hi ≤ hi := by
  fun_induction bisect holds lo hi with
  | case1 lo hi hlt mid _ ih => have := ih (by omega); omega
  | case2 lo hi hlt mid _ ih => have := ih (by omega); omega
  | case3 lo hi hge => omega

/-- If the condition stays false once it is, it holds just below the answer. -/
theorem bisect_spec {holds : Nat → Bool} {lo hi : Nat}
    (hdown : ∀ i j, i ≤ j → holds j = true → holds i = true) (i : Nat) (hlo : lo ≤ i)
    (hhi : i < hi) : holds i = true ↔ i < bisect holds lo hi := by
  fun_induction bisect holds lo hi with
  | case1 lo hi hlt mid hmid ih =>
    by_cases hi' : i ≤ mid
    · have hle : mid + 1 ≤ bisect holds (mid + 1) hi := (bisect_bounds (by omega)).1
      exact iff_of_true (hdown i mid hi' hmid) (by omega)
    · exact ih (by omega) hhi
  | case2 lo hi hlt mid hmid ih =>
    by_cases hi' : i < mid
    · exact ih hlo hi'
    · have hle : bisect holds lo mid ≤ mid := (bisect_bounds (by omega)).2
      exact iff_of_false (fun hi => hmid (hdown mid i (by omega) hi)) (by omega)
  | case3 lo hi hge => omega

end Columnar
