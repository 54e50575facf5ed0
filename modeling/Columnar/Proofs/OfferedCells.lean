import Columnar.Proofs.ColumnCells

/-! # Cells that are offered to a column

A column takes the cells that its schema allows, and refuses the others without a trace. Taking a
cell does not fail: whatever a column has taken can be written to a page. -/

namespace Columnar

variable [Lz4.Compressor]

/-- Offers cells to a column one after the other: those that it takes, and the writer then. -/
def ColumnWriter.offer : List Cell → ColumnWriter → List Cell × ColumnWriter
  | [], w => ([], w)
  | c :: cs, w =>
    match append c w with
    | .ok _ w =>
      let (taken, w) := offer cs w
      (c :: taken, w)
    | .error _ w => offer cs w

namespace ColumnPlan

variable {plan : ColumnPlan} {cells : List Cell} {w : ColumnWriter}

instance (plan : ColumnPlan) (c : Cell) : Decidable (plan.Accepts c) :=
  match h : plan.entry.check c with
  | .ok _ => .isTrue h
  | .error _ => .isFalse fun haccepts => by cases h.symm.trans haccepts

/-- A page of cells that were taken can be closed. -/
theorem Holds.closePage_eq_ok {r : Page.Runs} (h : plan.Holds r w)
    (haccepts : ∀ c ∈ r.current, plan.Accepts c) :
    ∃ w', ColumnWriter.closePage w = .ok () w' := by
  obtain ⟨page, hpage⟩ := Page.encode_eq_ok (takes_of_accepts haccepts).kinds
  unfold ColumnWriter.closePage
  rw [h.page, Page.Draft.close_of, hpage]
  by_cases hempty : (Page.Draft.of plan.format r.current).isEmpty = true
  · exact ⟨w, if_pos hempty⟩
  · exact ⟨_, if_neg hempty⟩

/-- A cell is taken if the schema allows it; otherwise the column stays as it was. -/
theorem Holds.append_cases (h : plan.Holds (plan.runsOf cells) w) (hopen : w.finished = false)
    (haccepts : ∀ c ∈ cells, plan.Accepts c) (c : Cell) :
    (plan.Accepts c ∧ ∃ w', ColumnWriter.append c w = .ok () w' ∧
        plan.Holds (plan.runsOf (cells ++ [c])) w' ∧ w'.finished = false) ∨
      ¬ plan.Accepts c ∧ ∃ e, plan.entry.check c = .error e ∧
        ColumnWriter.append c w = .error e w := by
  have happend := append_eq c w
  rw [hopen, if_neg Bool.false_ne_true, h.check] at happend
  cases hcheck : plan.entry.check c with
  | error e =>
      rw [hcheck] at happend
      refine .inr ⟨fun hok => ?_, e, rfl, happend⟩
      cases hcheck.symm.trans hok
  | ok _ =>
      have hrun : ∃ w', ColumnWriter.append c w = .ok () w' := by
        rw [happend, hcheck]
        by_cases hfull : (w.add c).isPageFull = true
        · have hcurrent : ∀ d ∈ ((plan.runsOf cells).push c).current, plan.Accepts d := by
            intro d hd
            rcases List.mem_append.mp hd with hd | hd
            · refine haccepts d ?_
              rw [← Page.cells_runsOf plan.format plan.options cells]
              exact List.mem_append_right _ hd
            · rw [List.mem_singleton.mp hd]
              exact hcheck
          simp only [if_pos hfull]
          exact (h.add c).closePage_eq_ok hcurrent
        · exact ⟨_, if_neg hfull⟩
      obtain ⟨w', hrun⟩ := hrun
      obtain ⟨hok, hholds, hopen'⟩ := h.append hopen hrun
      rw [← runsOf_concat] at hholds
      exact .inl ⟨hok, w', hrun, hholds, hopen'⟩

/-- After cells were offered a column is as if it had been offered only those that its schema
allows. -/
theorem Holds.offer (h : plan.Holds (plan.runsOf cells) w) (hopen : w.finished = false)
    (haccepts : ∀ c ∈ cells, plan.Accepts c) (offered : List Cell) :
    (ColumnWriter.offer offered w).1 = offered.filter (plan.Accepts ·) ∧
      plan.Holds (plan.runsOf (cells ++ offered.filter (plan.Accepts ·)))
        (ColumnWriter.offer offered w).2 := by
  induction offered generalizing cells w with
  | nil =>
      rw [List.filter_nil, List.append_nil]
      exact ⟨rfl, h⟩
  | cons c offered ih =>
      rw [ColumnWriter.offer]
      rcases h.append_cases hopen haccepts c with
        ⟨hok, w', hrun, hholds, hopen'⟩ | ⟨hno, e, -, hrun⟩
      · have hall : ∀ d ∈ cells ++ [c], plan.Accepts d := by
          intro d hd
          rcases List.mem_append.mp hd with hd | hd
          · exact haccepts d hd
          · rw [List.mem_singleton.mp hd]
            exact hok
        obtain ⟨htaken, hleft⟩ := ih hholds hopen' hall
        rw [List.append_assoc, List.singleton_append] at hleft
        rw [hrun, List.filter_cons_of_pos (p := (plan.Accepts ·)) (decide_eq_true hok)]
        exact ⟨congrArg (c :: ·) htaken, hleft⟩
      · rw [hrun, List.filter_cons_of_neg (by simpa using hno)]
        exact ih h hopen haccepts

end ColumnPlan

end Columnar
