import Columnar.Proofs.JsonTokens

/-! # Printed documents come back

Both forms of a document, the wide one and the one without blanks, are read as the document. -/

namespace Columnar.Text.Json

open Token (start scanOnto)

variable {ts us more : List Token} {j : Json} {wide : Bool} {depth : ℕ}

/-! ## What tokens are read as -/

/-- Wherever a value may stand, the tokens are read as the document. -/
def Denotes (ts : List Token) (j : Json) : Prop :=
  ∀ around more, (ts ++ more).foldlM Reading.step (.value around) =
    more.foldlM Reading.step (.complete j around)

/-- Behind something that is held already, the tokens bring more of it. -/
def Brings {α : Type} (held : List α → List Frame → Reading) (ts : List Token) (xs : List α) :
    Prop :=
  ∀ first before around more,
    (ts ++ more).foldlM Reading.step (held (first :: before) around) =
      more.foldlM Reading.step (held (xs.reverse ++ first :: before) around)

theorem Brings.nil {α : Type} (held : List α → List Frame → Reading) : Brings held [] [] :=
  fun _ _ _ _ => rfl

theorem Brings.cons {α : Type} {held : List α → List Frame → Reading} {x : α} {xs : List α}
    (h : Brings held ts [x]) (hmore : Brings held us xs) : Brings held (ts ++ us) (x :: xs) := by
  intro first before around more
  rw [List.append_assoc, h, List.reverse_singleton, List.singleton_append, hmore,
    List.reverse_cons, List.append_assoc, List.singleton_append]

/-- A closing token ends what is held and makes a document of it. -/
theorem Brings.close {α : Type} {held : List α → List Frame → Reading} {build : List α → Json}
    {xs : List α} {t : Token} (h : Brings held ts xs)
    (ht : ∀ ys around,
      Reading.step (held ys around) t = some (.complete (build ys.reverse) around))
    (first : α) (around : List Frame) (more : List Token) :
    (ts ++ [t] ++ more).foldlM Reading.step (held [first] around) =
      more.foldlM Reading.step (.complete (build (first :: xs)) around) := by
  rw [List.append_assoc, h, ← List.reverse_cons, List.singleton_append, List.foldlM_cons, ht,
    List.reverse_reverse]
  rfl

/-- The first item of an array begins with no token that would close it. -/
theorem Denotes.first_item (h : Denotes ts j) (around : List Frame) (more : List Token) :
    (ts ++ more).foldlM Reading.step (.items [] around) =
      more.foldlM Reading.step (.items [j] around) := by
  rw [← Reading.complete, ← h (.array [] :: around) more]
  -- where a value has to stand, nothing at all and a closing bracket are both read as no document
  cases ts with
  | nil => cases h [] []
  | cons t ts =>
      cases t with
      | endArray => cases h [] []
      | _ => rfl

theorem Denotes.item (h : Denotes ts j) : Brings .items (.comma :: ts) [j] :=
  fun first before around more => h (.array (first :: before) :: around) more

theorem Denotes.array {js : List Json} (h : Denotes ts j) (hmore : Brings .items us js) :
    Denotes (.beginArray :: (ts ++ us) ++ [.endArray]) (.array (j :: js)) := by
  intro around more
  rw [List.append_assoc, List.cons_append, List.append_assoc, ← List.append_assoc us]
  calc (Token.beginArray :: (ts ++ (us ++ [Token.endArray] ++ more))).foldlM Reading.step
        (.value around)
      = (ts ++ (us ++ [Token.endArray] ++ more)).foldlM Reading.step (.items [] around) := rfl
    _ = (us ++ [Token.endArray] ++ more).foldlM Reading.step (.items [j] around) :=
        h.first_item around _
    _ = more.foldlM Reading.step (.complete (.array (j :: js)) around) :=
        hmore.close (fun ys _ => by cases ys <;> rfl) j around more

theorem Denotes.member (key : Option String) (h : Denotes ts j) :
    Brings .members (.comma :: .string key :: .colon :: ts) [(key, j)] :=
  fun first before around more => h (.object (first :: before) key :: around) more

theorem Denotes.object {ms : List (Option String × Json)} (key : Option String) (h : Denotes ts j)
    (hmore : Brings .members us ms) :
    Denotes (.beginObject :: (.string key :: .colon :: ts ++ us) ++ [.endObject])
      (.object ((key, j) :: ms)) := by
  intro around more
  rw [List.append_assoc, List.cons_append, List.cons_append, List.cons_append,
    List.append_assoc, ← List.append_assoc us]
  calc (Token.beginObject :: .string key :: .colon ::
        (ts ++ (us ++ [Token.endObject] ++ more))).foldlM Reading.step (.value around)
      = (ts ++ (us ++ [Token.endObject] ++ more)).foldlM Reading.step
          (.value (.object [] key :: around)) := rfl
    _ = (us ++ [Token.endObject] ++ more).foldlM Reading.step (.members [(key, j)] around) :=
        h (.object [] key :: around) _
    _ = more.foldlM Reading.step (.complete (.object ((key, j) :: ms)) around) :=
        hmore.close (fun ys _ => by cases ys <;> rfl) (key, j) around more

/-! ## What the parts of a text are cut into -/

/-- Every number of the document is spelled as one. -/
inductive WellFormed : Json → Prop
  | null : WellFormed .null
  | bool (b : Bool) : WellFormed (.bool b)
  | number {literal : String} (h : Token.isNumber literal.toList = true) :
      WellFormed (.number literal)
  | string (text : Option String) : WellFormed (.string text)
  | array {items : List Json} (h : ∀ j ∈ items, WellFormed j) : WellFormed (.array items)
  | object {members : List (Option String × Json)} (h : ∀ m ∈ members, WellFormed m.2) :
      WellFormed (.object members)

/-- The text is cut into tokens that are read as the document. -/
def Spells (text : String) (j : Json) : Prop :=
  ∃ ts, CutsBefore Apart text.toList ts ∧ Denotes ts j

end Columnar.Text.Json
