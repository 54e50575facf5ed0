import Columnar.Proofs.Calls
import Columnar.Proofs.Lz4Matches
import Columnar.Proofs.PageRoundTrip
import Columnar.Proofs.PageRuns

/-! # Pages that are built one after the other

A draft takes cells of any kind and gives pages. After any calls its state is that of the cells that
came since the last page; the next page holds these cells and no others. -/

namespace Columnar.Page

namespace Draft

variable [Lz4.Compressor]

/-! ## Calls -/

/-- What a draft can be asked for. -/
inductive Call
  | add (c : Cell)
  | finish

/-- What a call does to a draft. The page is what `finish` gives. -/
def Call.run : Call → EStateM Error Draft (Option Bytes)
  | .add c => fun d => .ok none (d.add c)
  | .finish => some <$> close

/-- What came of a call. -/
abbrev Answer := Except Error (Option Bytes)

def answer (call : Call) (d : Draft) : Answer × Draft := settle (call.run d)

/-- The cells that wait for a page after a call, if `cells` did before it. -/
def pendingAfter (cells : List Cell) : Call × Answer → List Cell
  | (.add c, _) => cells ++ [c]
  | (.finish, .ok _) => []
  | (.finish, .error _) => cells

/-- The cells that came since the last page. -/
def pending (events : List (Call × Answer)) : List Cell := events.foldl pendingAfter []

/-! ## States -/

theorem finish_of (f : PageFormat) (cells : List Cell) :
    (of f cells).finish = (fun page => (page, { format := f })) <$> Page.encode f cells := by
  rw [finish, close_of]
  cases Page.encode f cells <;> rfl

theorem answer_finish (f : PageFormat) (cells : List Cell) :
    answer .finish (of f cells) =
      match Page.encode f cells with
      | .ok page => (.ok (some page), { format := f })
      | .error e => (.error e, of f cells) := by
  change settle (EStateM.map some close (of f cells)) = _
  rw [EStateM.map, close_of]
  cases Page.encode f cells <;> rfl

/-- One call leaves a draft of the cells that wait after it. -/
theorem answer_snd (f : PageFormat) (cells : List Cell) (call : Call) :
    (answer call (of f cells)).2 =
      of f (pendingAfter cells (call, (answer call (of f cells)).1)) := by
  cases call with
  | add c => exact add_of f cells c
  | finish =>
      rw [answer_finish]
      cases Page.encode f cells <;> rfl

/-- After all calls the draft is that of the cells that wait. -/
theorem answers_snd (f : PageFormat) (calls : List Call) :
    (answers answer calls { format := f }).2 =
      of f (pending (calls.zip (answers answer calls { format := f }).1)) := by
  refine answers_keep (fun events d => d = of f (pending events)) ?_ calls [] rfl
  rintro events call d rfl
  have hnext : pending (events ++ [(call, (answer call (of f (pending events))).1)]) =
      pendingAfter (pending events) (call, (answer call (of f (pending events))).1) := by
    rw [pending, List.foldl_append]
    rfl
  rw [hnext]
  exact answer_snd f _ call

end Draft

/-! ## Pages -/

/-- Cells that come back from a page: as many as a page can have, each null or a value that the
field takes. Strings have lengths of a word, and a body that is compressed is below 4 GiB. -/
structure Restorable (f : PageFormat) (cells : List Cell) : Prop where
  values : ∀ v, some v ∈ cells → f.field.check v = .ok ()
  rows : cells.length ≤ maxRows
  short : Short cells
  fit : f.compression = .lz4 → ∀ bytes, body f.field f.encoding cells = .ok bytes →
    bytes.length < 2 ^ 32

theorem Restorable.takes {f : PageFormat} {cells : List Cell} (h : Restorable f cells) :
    Takes f.field f.encoding cells := fun v hv => Field.Admits.holds (h.values v hv) f.encoding

/-- What comes of `finish` where `cells` wait for a page: the draft before it, the answer, and the
draft behind it. -/
structure Finishes (f : PageFormat) (cells : List Cell) (d : Draft) (a : Draft.Answer)
    (d' : Draft) : Prop where
  /-- Nothing is left of the cells that went into pages before. -/
  before : d = .of f cells
  failed : ∀ e, a = .error e → d' = d
  succeeded : ∀ given, a = .ok given → given.isSome ∧ d' = { format := f }
  /-- Only values of another type than that of the field can make the call fail. -/
  gives : (∀ v, some v ∈ cells → v.kind = f.field.type.kind) → ∃ page, a = .ok (some page)
  restores : Restorable f cells → ∀ page, a = .ok (some page) → ∀ verify,
    decode f page cells.length verify = .ok cells
  refuses : Restorable f cells → ∀ page, a = .ok (some page) → ∀ verify,
    ∀ rows ≠ cells.length, ∃ e, decode f page rows verify = .error e ∧ e.isCorruption = true

theorem finishes_of [Lz4.Compressor] [Lz4.LawfulCompressor] (f : PageFormat)
    (cells : List Cell) :
    Finishes f cells (.of f cells) (Draft.answer .finish (.of f cells)).1
      (Draft.answer .finish (.of f cells)).2 := by
  rw [Draft.answer_finish]
  cases hpage : encode f cells with
  | error e =>
      refine ⟨rfl, fun _ _ => rfl, nofun, fun hkinds => ?_, nofun, nofun⟩
      obtain ⟨page, hpage'⟩ := encode_eq_ok hkinds
      cases hpage.symm.trans hpage'
  | ok page =>
      obtain ⟨bytes, hbody, -⟩ := of_bind_eq_ok hpage
      refine ⟨rfl, nofun, ?_, fun _ => ⟨page, rfl⟩, ?_, ?_⟩
      · rintro _ ⟨⟩
        exact ⟨rfl, rfl⟩
      · rintro h _ ⟨⟩ verify
        exact decode_encode h.takes h.rows h.short hbody (fun hc => h.fit hc bytes hbody) hpage
          verify
      · rintro h _ ⟨⟩ verify rows hne
        exact ⟨_, decode_encode_of_ne h.rows hbody (fun hc => h.fit hc bytes hbody) hpage hne
          verify, by split <;> rfl⟩

/-- Whatever was asked of a draft before, a page holds the cells that came since the last one. -/
theorem pages_hold_what_was_added [Lz4.Compressor] [Lz4.LawfulCompressor] (f : PageFormat)
    (calls : List Draft.Call) :
    let (as, d) := answers Draft.answer calls { format := f }
    let (a, d') := Draft.answer .finish d
    Finishes f (Draft.pending (calls.zip as)) d a d' := by
  have h := finishes_of f (Draft.pending (calls.zip (answers Draft.answer calls { format := f }).1))
  rwa [← Draft.answers_snd] at h

attribute [local instance] Lz4.matcher

/-- A page with a null behind another page, and a string among numbers. -/
theorem pages_hold_what_was_added_numbers :
    let f : PageFormat := ⟨⟨.int, 0⟩, .bitPacked, .none, rfl⟩
    let second : List Draft.Call :=
      [.add (some (.int32 5)), .finish, .add none, .add (some (.int32 (-3)))]
    let mixed : List Draft.Call := [.add (some (.int32 5)), .add (some (.bytes [97]))]
    let after calls := (answers Draft.answer calls { format := f }).2
    (∃ page, Draft.answer .finish (after second) = (.ok (some page), { format := f }) ∧
        ∀ verify, decode f page 2 verify = .ok [none, some (.int32 (-3))] ∧
          ∀ rows ≠ 2, ∃ e, decode f page rows verify = .error e ∧ e.isCorruption = true) ∧
      ∃ e, Draft.answer .finish (after mixed) = (.error e, after mixed) ∧
        (after mixed).numRows = 2 := by
  intro f second mixed after
  constructor
  · have h : Finishes f [none, some (.int32 (-3))] (after second) _ _ :=
      pages_hold_what_was_added f second
    have hvalues : ∀ v, some v ∈ [none, some (Value.int32 (-3))] → v = .int32 (-3) := by simp
    have hrestorable : Restorable f [none, some (.int32 (-3))] :=
      ⟨fun v hv => by rw [hvalues v hv]; rfl, by decide, fun bs hbs => (nomatch hvalues _ hbs),
        nofun⟩
    obtain ⟨page, hpage⟩ := h.gives fun v hv => by rw [hvalues v hv]; rfl
    exact ⟨page, Prod.ext hpage (h.succeeded _ hpage).2, fun verify =>
      ⟨h.restores hrestorable page hpage verify, h.refuses hrestorable page hpage verify⟩⟩
  · have h : Finishes f [some (.int32 5), some (.bytes [97])] (after mixed) _ _ :=
      pages_hold_what_was_added f mixed
    obtain ⟨e, he⟩ : ∃ e, (Draft.answer .finish (after mixed)).1 = .error e := ⟨_, rfl⟩
    exact ⟨e, Prod.ext he (h.failed e he), rfl⟩

end Columnar.Page
