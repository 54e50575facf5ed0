import Columnar.Proofs.Numerals
import Columnar.Text.Json.Reader
import Mathlib.Data.List.TakeWhile

/-! # The tokens of printed text

Pieces of printed text are cut into their tokens wherever they stand. Words alone depend on what
comes behind them, which must not go on with them. -/

namespace Columnar.Text.Json

open Token (start step scanOnto)

/-! ## Pieces of text -/

/-- The text is cut into the tokens if what comes behind it has a property. -/
def CutsBefore (P : List Char → Prop) (text : List Char) (ts : List Token) : Prop :=
  ∀ rest done, P rest →
    scanOnto (text ++ rest) .between done = scanOnto rest .between (ts.reverse ++ done)

/-- The text is cut into the tokens, whatever comes behind it. -/
def Cuts (text : List Char) (ts : List Token) : Prop := CutsBefore (fun _ => True) text ts

/-- No word goes on with what comes behind it. -/
def Apart (rest : List Char) : Prop := ∀ c ∈ rest.head?, ∀ cs, (start c).2 ≠ .word cs

variable {P Q : List Char → Prop} {text more : List Char} {ts us : List Token}

theorem Cuts.before (h : Cuts text ts) : CutsBefore P text ts :=
  fun rest done _ => h rest done trivial

theorem CutsBefore.append (h : CutsBefore P text ts) (hmore : CutsBefore Q more us)
    (hbehind : ∀ rest, Q rest → P (more ++ rest)) :
    CutsBefore Q (text ++ more) (ts ++ us) := by
  intro rest done hrest
  rw [List.append_assoc, h _ _ (hbehind rest hrest), hmore _ _ hrest, List.reverse_append,
    List.append_assoc]

theorem Cuts.append (h : Cuts text ts) (hmore : CutsBefore P more us) :
    CutsBefore P (text ++ more) (ts ++ us) :=
  CutsBefore.append h hmore fun _ _ => trivial

theorem Apart.nil : Apart [] := fun _ h => nomatch h

theorem Apart.append (h : Apart text) (hmore : Apart more) : Apart (text ++ more) := by
  cases text with
  | nil => exact hmore
  | cons c cs => exact h

end Columnar.Text.Json
