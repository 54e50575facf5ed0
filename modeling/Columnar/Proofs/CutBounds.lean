import Columnar.Proofs.ZoneMapMerge
import Mathlib.Order.Bounds.Defs

/-! # How tight cut bounds are

A string bound that is cut stays as near to the whole one as its length allows. The least value
becomes the greatest one below it of that length. The greatest value becomes the least string above
all that begin as it does, and is kept whole if there is no such string. -/

namespace Columnar

namespace ZoneMap

variable {limit : ℕ}

/-- A string, if it is one, of at most `limit` bytes. -/
def Within (limit : ℕ) (v : Value) : Prop := ∀ bs, v = .bytes bs → bs.length ≤ limit

/-- The strings above all that begin with `front`. -/
def stringsAbove (front : Bytes) : Set Value :=
  { v | ∃ t, v = .bytes t ∧ ∀ s, front <+: s → Value.bytes s < .bytes t }

/-! ## The least value -/

theorem within_cutLeast (limit : ℕ) (v : Value) : Within limit (cutLeast limit v) := by
  intro bs h
  cases v with
  | bytes whole =>
      cases h
      exact List.length_take_le limit whole
  | _ => cases h

theorem Within.cutLeast_eq {v : Value} (h : Within limit v) : cutLeast limit v = v := by
  cases v with
  | bytes bs => rw [cutLeast, List.take_of_length_le (h bs rfl)]
  | _ => rfl

/-- No value of the length that is allowed lies between a value and its cut. -/
theorem isGreatest_cutLeast (limit : ℕ) (v : Value) :
    IsGreatest { u | u ≤ v ∧ Within limit u } (cutLeast limit v) := by
  refine ⟨⟨isLE_cutLeast limit v, within_cutLeast limit v⟩, ?_⟩
  rintro u ⟨hle, hwithin⟩
  rw [← hwithin.cutLeast_eq]
  exact monotone_cutLeast limit hle

/-! ## The greatest value -/

theorem successor?_eq_none_iff {bs : Bytes} : successor? bs = none ↔ ∀ b ∈ bs, b = 255 := by
  induction bs with
  | nil => simp [successor?]
  | cons b bs ih =>
      rw [successor?, List.forall_mem_cons, ← ih]
      cases successor? bs <;> simp

theorem isLeast_successor {bs s : Bytes} (h : successor? bs = some s) :
    IsLeast (stringsAbove bs) (.bytes s) := by
  constructor
  · refine ⟨s, rfl, ?_⟩
    rintro _ ⟨more, rfl⟩
    exact lt_successor h more
  · rintro _ ⟨t, rfl, habove⟩
    have hbelow : Below bs t := fun more => habove _ (List.prefix_append bs more)
    exact hbelow.successor_isLE h

/-- What may become of the greatest value: it stays if its front is made of the last byte only, and
else has the length that is allowed. -/
structure CutAbove (limit : ℕ) (v cut : Value) : Prop where
  le : v ≤ cut
  kept : ∀ bs, v = .bytes bs → (∀ b ∈ bs.take limit, b = 255) → cut = v
  within : (∀ bs, v = .bytes bs → ∃ b ∈ bs.take limit, b ≠ 255) → Within limit cut
  isLeast : cut ≠ v → ∃ bs, v = .bytes bs ∧ limit < bs.length ∧
    IsLeast (stringsAbove (bs.take limit)) cut

theorem cutAbove_self {v : Value}
    (h : Within limit v ∨ ∃ bs, v = .bytes bs ∧ ∀ b ∈ bs.take limit, b = 255) :
    CutAbove limit v v where
  le := le_rfl
  kept _ _ _ := rfl
  within hraise := by
    rcases h with h | ⟨bs, hbs, hlast⟩
    · exact h
    · obtain ⟨b, hb, hne⟩ := hraise bs hbs
      exact absurd (hlast b hb) hne
  isLeast hne := absurd rfl hne

theorem cutAbove_cutGreatest (limit : ℕ) (v : Value) :
    CutAbove limit v (cutGreatest limit v) := by
  cases v with
  | bytes bs =>
      by_cases hshort : bs.length ≤ limit
      · rw [cutGreatest, if_pos hshort]
        refine cutAbove_self (.inl ?_)
        rintro _ ⟨⟩
        exact hshort
      · cases hs : successor? (bs.take limit) with
        | none =>
            rw [cutGreatest, if_neg hshort, hs, Option.getD_none]
            exact cutAbove_self (.inr ⟨bs, rfl, successor?_eq_none_iff.mp hs⟩)
        | some s =>
            have hcut : cutGreatest limit (.bytes bs) = .bytes s := by
              rw [cutGreatest, if_neg hshort, hs, Option.getD_some]
            refine ⟨isLE_cutGreatest limit _, ?_, fun _ => ?_, fun _ => ?_⟩
            · rintro _ ⟨⟩ hlast
              rw [successor?_eq_none_iff.mpr hlast] at hs
              cases hs
            · rw [hcut]
              rintro _ ⟨⟩
              exact (length_successor_le hs).trans (List.length_take_le limit bs)
            · rw [hcut]
              exact ⟨bs, rfl, Nat.lt_of_not_le hshort, isLeast_successor hs⟩
  | _ =>
      refine cutAbove_self (.inl fun bs h => ?_)
      cases h

/-! ## Both bounds -/

/-- What becomes of a zone map whose string bounds are cut to `limit` bytes. -/
structure CutsTo (limit : ℕ) (z cut : ZoneMap) : Prop where
  hasNull_eq : cut.hasNull = z.hasNull
  hasNotNull_eq : cut.hasNotNull = z.hasNotNull
  min : ∀ least, z.min? = some least →
    ∃ v, cut.min? = some v ∧ IsGreatest { u | u ≤ least ∧ Within limit u } v
  max : ∀ greatest, z.max? = some greatest →
    ∃ v, cut.max? = some v ∧ CutAbove limit greatest v
  ordered : z.Ordered → cut.Ordered

theorem Ordered.truncated {z : ZoneMap} (h : z.Ordered) (limit : ℕ) :
    (z.truncated limit).Ordered := by
  intro least greatest hbounds
  obtain ⟨⟨l, g⟩, hb, hcut⟩ := Option.map_eq_some_iff.mp hbounds
  obtain ⟨rfl, rfl⟩ := Prod.mk.inj hcut
  calc cutLeast limit l
      ≤ l := isLE_cutLeast limit l
    _ ≤ g := h l g hb
    _ ≤ cutGreatest limit g := isLE_cutGreatest limit g

end ZoneMap

/-- Cutting the bounds of a zone map to a length keeps what it says of nulls, and leaves bounds that
are as tight as the length allows. -/
theorem cut_bounds_tight (z : ZoneMap) (limit : ℕ) : z.CutsTo limit (z.truncated limit) where
  hasNull_eq := rfl
  hasNotNull_eq := by simp [ZoneMap.truncated, ZoneMap.hasNotNull]
  min least hleast := by
    obtain ⟨⟨_, g⟩, hb, rfl⟩ := Option.map_eq_some_iff.mp hleast
    refine ⟨ZoneMap.cutLeast limit _, ?_, ZoneMap.isGreatest_cutLeast limit _⟩
    simp [ZoneMap.truncated, ZoneMap.min?, hb]
  max greatest hgreatest := by
    obtain ⟨⟨l, _⟩, hb, rfl⟩ := Option.map_eq_some_iff.mp hgreatest
    refine ⟨ZoneMap.cutGreatest limit _, ?_, ZoneMap.cutAbove_cutGreatest limit _⟩
    simp [ZoneMap.truncated, ZoneMap.max?, hb]
  ordered h := h.truncated limit

-- the last bytes of the greatest value cannot be raised, and go
example : ({ bounds := some (.bytes [97, 98, 99, 100], .bytes [98, 255, 255, 1]) } :
      ZoneMap).truncated 3 = { bounds := some (.bytes [97, 98, 99], .bytes [99]) } := by
  decide

end Columnar
