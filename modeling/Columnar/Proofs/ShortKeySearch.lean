import Columnar.Proofs.Machine.Segments
import Columnar.Proofs.ShortKeyRoundTrip
import Columnar.Proofs.ValueOrder
import Mathlib.Order.Bounds.Defs

/-! # Searching for a short key

If the keys of an index do not fall, the bisection counts those below a target, or those that are
not above it, and a scan starts at the last block whose key is below the target. -/

namespace Columnar

/-- A condition that holds of the first `n` items and of no other holds of `n` items. -/
theorem countP_eq_of_lt_iff {α : Type} {p : α → Bool} {xs : List α} {n : ℕ} (hn : n ≤ xs.length)
    (h : ∀ i a, xs[i]? = some a → (p a = true ↔ i < n)) : xs.countP p = n := by
  have hfront : (xs.take n).countP p = n := by
    conv_rhs => rw [← List.length_take_of_le hn]
    rw [List.countP_eq_length]
    intro a ha
    obtain ⟨i, hi, rfl⟩ := List.mem_take_iff_getElem.mp ha
    exact (h i _ (List.getElem?_eq_getElem (by omega))).mpr (by omega)
  have hback : (xs.drop n).countP p = 0 := by
    rw [List.countP_eq_zero]
    intro a ha hp
    obtain ⟨i, hi, rfl⟩ := List.mem_drop_iff_getElem.mp ha
    have hlt := (h (n + i) _ (List.getElem?_eq_getElem (by omega))).mp hp
    omega
  rw [← List.take_append_drop n xs, List.countP_append, hfront, hback,
    Nat.add_zero]

namespace ShortKeyIndex

variable {x : ShortKeyIndex} {target key : Bytes} {b : ℕ}

/-! ## The bisection -/

theorem partition_le (meets : Bytes → Bool) : x.partition meets ≤ x.keys.size :=
  (bisect_bounds (Nat.zero_le _)).2

/-- A condition that later keys meet only if earlier ones do is met below the bound it leads to. -/
theorem lt_partition_iff {meets : Bytes → Bool}
    (hdown : x.keys.toList.Pairwise fun a b => meets b = true → meets a = true)
    (hb : x.keys[b]? = some key) : meets key = true ↔ b < x.partition meets := by
  have hholds : ∀ i j : ℕ, i ≤ j → x.keys[j]?.any meets = true → x.keys[i]?.any meets = true := by
    intro i j hij hj
    obtain ⟨later, hlater, hmeets⟩ := (Option.any_eq_true _ _).mp hj
    obtain ⟨hj, rfl⟩ := Array.getElem?_eq_some_iff.mp hlater
    have hi : i < x.keys.size := by omega
    rw [Array.getElem?_eq_getElem hi, Option.any_some]
    rcases Nat.eq_or_lt_of_le hij with rfl | hlt
    · exact hmeets
    · exact List.pairwise_iff_getElem.mp hdown i j hi hj hlt hmeets
  obtain ⟨hlt, -⟩ := Array.getElem?_eq_some_iff.mp hb
  have hspec := bisect_spec hholds b (Nat.zero_le b) hlt
  rwa [hb, Option.any_some] at hspec

theorem partition_eq_countP {meets : Bytes → Bool}
    (hdown : x.keys.toList.Pairwise fun a b => meets b = true → meets a = true) :
    x.partition meets = x.keys.toList.countP meets :=
  (countP_eq_of_lt_iff (partition_le meets) fun i key hi =>
    lt_partition_iff hdown (by rwa [Array.getElem?_toList] at hi)).symm

section

variable (hsorted : x.keys.toList.Pairwise fun a b => (compare a b).isLE)
include hsorted

theorem pairwise_below (target : Bytes) : x.keys.toList.Pairwise fun a b =>
    decide (compare b target = .lt) = true → decide (compare a target = .lt) = true :=
  hsorted.imp fun hab hb =>
    decide_eq_true (Std.TransCmp.lt_of_isLE_of_lt hab (of_decide_eq_true hb))

theorem pairwise_notAbove (target : Bytes) : x.keys.toList.Pairwise fun a b =>
    decide (compare b target ≠ .gt) = true → decide (compare a target ≠ .gt) = true :=
  hsorted.imp fun hab hb => by
    rw [decide_eq_true_eq, ne_eq, ← Ordering.isLE_iff_ne_gt] at hb ⊢
    exact Std.TransCmp.isLE_trans hab hb

/-- The search stops behind all keys that are below the target. -/
theorem compare_eq_lt_iff (hb : x.keys[b]? = some key) :
    compare key target = .lt ↔ b < x.lowerBound target := by
  have hspec := lt_partition_iff (pairwise_below hsorted target) hb
  rwa [decide_eq_true_eq] at hspec

theorem isLE_compare_iff (hb : x.keys[b]? = some key) :
    (compare key target).isLE ↔ b < x.upperBound target := by
  have hspec := lt_partition_iff (pairwise_notAbove hsorted target) hb
  rwa [decide_eq_true_eq, ne_eq, ← Ordering.isLE_iff_ne_gt] at hspec

/-! ## The block to start from -/

theorem setOf_below (target : Bytes) :
    {b | ∃ key, x.keys[b]? = some key ∧ compare key target = .lt} =
      Set.Iio (x.lowerBound target) := by
  ext b
  rw [Set.mem_ofPred_eq, Set.mem_Iio]
  constructor
  · rintro ⟨key, hb, hlt⟩
    exact (compare_eq_lt_iff hsorted hb).mp hlt
  · intro hlt
    have hb := Array.getElem?_eq_getElem (hlt.trans_le (partition_le _))
    exact ⟨_, hb, (compare_eq_lt_iff hsorted hb).mpr hlt⟩

/-- A scan starts at the last block whose key is below the target, or at the first of all. -/
theorem isGreatest_seekBlock (target : Bytes) :
    let below := {b | ∃ key, x.keys[b]? = some key ∧ compare key target = .lt}
    IsGreatest below (x.seekBlock target) ∨ below = ∅ ∧ x.seekBlock target = 0 := by
  intro below
  have hbelow : below = Set.Iio (x.lowerBound target) := setOf_below hsorted target
  rw [hbelow, seekBlock]
  rcases Nat.eq_zero_or_pos (x.lowerBound target) with hzero | hpos
  · rw [hzero]
    exact .inr ⟨Set.eq_empty_of_forall_notMem fun b => Nat.not_lt_zero b, rfl⟩
  · exact .inl ⟨Nat.sub_one_lt_of_lt hpos, fun b hb => Nat.le_sub_one_of_lt hb⟩

/-- The key of that block is not above the target, unless all keys are. -/
theorem exists_key_seekBlock (h : ∃ key ∈ x.keys, (compare key target).isLE) :
    ∃ key, x.keys[x.seekBlock target]? = some key ∧ (compare key target).isLE := by
  obtain ⟨key, hkey, hle⟩ := h
  obtain ⟨b, hb⟩ := Array.mem_iff_getElem?.mp hkey
  have hupper := (isLE_compare_iff hsorted hb).mp hle
  have hsize : x.upperBound target ≤ x.keys.size := partition_le _
  rcases isGreatest_seekBlock hsorted target with ⟨⟨first, hfirst, hlt⟩, -⟩ | ⟨-, hzero⟩
  · exact ⟨first, hfirst, Ordering.isLE_of_eq_lt hlt⟩
  · have hfirst := Array.getElem?_eq_getElem (show 0 < x.keys.size by omega)
    rw [hzero]
    exact ⟨_, hfirst, (isLE_compare_iff hsorted hfirst).mpr (by omega)⟩

/-- A block whose key is not below the target comes behind, if it is not the first of all. -/
theorem seekBlock_lt (hb : x.keys[b]? = some key) (hkey : (compare key target).isGE)
    (hne : b ≠ 0) : x.seekBlock target < b := by
  have hle : ¬ b < x.lowerBound target := by
    rw [← compare_eq_lt_iff hsorted hb]
    intro hlt
    rw [hlt] at hkey
    cases hkey
  rw [seekBlock]
  omega

end

/-- What a search for the target gives, told from the keys alone. -/
structure SearchSpec (x : ShortKeyIndex) (target : Bytes) : Prop where
  lowerBound : x.lowerBound target = x.keys.toList.countP fun key => compare key target = .lt
  upperBound : x.upperBound target = x.keys.toList.countP fun key => (compare key target).isLE
  seekBlock : let below := {b | ∃ key, x.keys[b]? = some key ∧ compare key target = .lt}
    IsGreatest below (x.seekBlock target) ∨ below = ∅ ∧ x.seekBlock target = 0
  key_seekBlock : (∃ key ∈ x.keys, (compare key target).isLE) →
    ∃ key, x.keys[x.seekBlock target]? = some key ∧ (compare key target).isLE
  seekBlock_lt : ∀ b key, x.keys[b]? = some key → (compare key target).isGE → b ≠ 0 →
    x.seekBlock target < b

theorem searchSpec (hsorted : x.keys.toList.Pairwise fun a b => (compare a b).isLE)
    (target : Bytes) : x.SearchSpec target where
  lowerBound := partition_eq_countP (pairwise_below hsorted target)
  upperBound := (partition_eq_countP (pairwise_notAbove hsorted target)).trans
    (List.countP_congr fun key _ => by
      rw [decide_eq_true_eq, ne_eq, ← Ordering.isLE_iff_ne_gt])
  seekBlock := isGreatest_seekBlock hsorted target
  key_seekBlock := exists_key_seekBlock hsorted
  seekBlock_lt _ _ := seekBlock_lt hsorted

/-! ## The keys of the bytes -/

/-- Behind the header come the keys and then where each begins, and each key is what stands between
two such places. -/
def CutFrom (x : ShortKeyIndex) (data : Bytes) : Prop :=
  ∃ keys offsets, data.drop ShortKeyDraft.headerSize = keys ++ offsets.flatMap (Bytes.little 4) ∧
    offsets.length = x.numItems ∧ ∀ b < x.numItems, Machine.key keys offsets b = x.keys[b]?

theorem cutFrom_of_parse {data : Bytes} (h : parse data = .ok x) : x.CutFrom data := by
  have hdecode : ∃ rest, decode data = .ok x rest := by
    unfold parse at h
    split at h
    next index rest heq =>
      cases h
      exact ⟨rest, heq⟩
    next => cases h
  obtain ⟨left, h⟩ := hdecode
  obtain ⟨segmentId, _, h₁, h⟩ := bind_eq_ok h
  obtain ⟨perBlock, _, h₂, h⟩ := bind_eq_ok h
  obtain ⟨numItems, _, h₃, h⟩ := bind_eq_ok h
  obtain ⟨numRows, _, h₄, h⟩ := bind_eq_ok h
  obtain ⟨keySize, _, h₅, h⟩ := bind_eq_ok h
  obtain ⟨offsetSize, _, h₆, h⟩ := bind_eq_ok h
  obtain ⟨stored, rest, h₇, h⟩ := bind_eq_ok h
  obtain ⟨_, _, hget, h⟩ := bind_eq_ok h
  cases hget
  obtain ⟨hlen, h⟩ := check_eq_ok h
  obtain ⟨-, h⟩ := check_eq_ok h
  obtain ⟨hoffsets, h⟩ := check_eq_ok h
  obtain ⟨-, h⟩ := check_eq_ok h
  obtain ⟨keys, _, htake, h⟩ := bind_eq_ok h
  obtain ⟨offsets, behind, htimes, h⟩ := bind_eq_ok h
  have hplaced : misplaced? keySize 0 0 offsets = none := by
    cases hplaced : misplaced? keySize 0 0 offsets with
    | none => rfl
    | some placed =>
        rw [hplaced] at h
        cases h
  rw [hplaced] at h
  cases h
  have hspells : Decoder.Spells (Decoder.word 4 "short key offset") (Bytes.little 4) :=
    fun _ _ _ hword => (Decoder.spells_word hword).1
  obtain ⟨hcount, rfl⟩ := Decoder.spells_times hspells htimes
  obtain ⟨rfl, hsize⟩ := Decoder.take_eq_ok_iff.mp htake
  obtain ⟨h₃, hitems⟩ := Decoder.spells_word h₃
  -- the header is seven words, and behind the offsets there is nothing
  have hdata : data.drop ShortKeyDraft.headerSize =
      keys ++ (offsets.flatMap (Bytes.little 4) ++ left) := by
    rw [Decoder.spells_word32 _ _ _ _ h₁, Decoder.spells_word32 _ _ _ _ h₂, h₃,
      Decoder.spells_word32 _ _ _ _ h₄, (Decoder.spells_word h₅).1, (Decoder.spells_word h₆).1,
      Decoder.spells_word32 _ _ _ _ h₇]
    simp only [← List.append_assoc _ _ (keys ++ _)]
    exact List.drop_left' (by simp [ShortKeyDraft.headerSize])
  have hwidth : (offsets.flatMap (Bytes.little 4)).length = offsets.length * 4 := by
    simp [List.length_flatMap, List.map_const']
  have hleft : left = [] := by
    rw [List.length_append, List.length_append] at hlen
    exact List.length_eq_zero_iff.mp (by omega)
  rw [← hsize] at hplaced
  obtain ⟨hkeys, hkey⟩ := Machine.key_split (by omega) hplaced
  refine ⟨keys, offsets, by rw [hdata, hleft, List.append_nil], hkeys.symm, fun b hb => ?_⟩
  have hb := Array.getElem?_eq_getElem hb
  rw [hb]
  exact hkey b _ (by rw [← List.getElem?_toArray]; exact hb)

end ShortKeyIndex

/-- If the keys of an index that is accepted do not fall, with keys that are repeated or empty among
them, every search in it is exact. -/
theorem short_key_search_exact {data : Bytes} {x : ShortKeyIndex}
    (hparse : ShortKeyIndex.parse data = .ok x)
    (hsorted : x.keys.toList.Pairwise fun a b => (compare a b).isLE) :
    x.CutFrom data ∧ ∀ target, x.SearchSpec target :=
  ⟨ShortKeyIndex.cutFrom_of_parse hparse, ShortKeyIndex.searchSpec hsorted⟩

/-- Two keys are empty and two are equal. -/
theorem short_key_search_exact_repeated :
    let keys : List Bytes := [[], [], [1], [1], [1, 0], [255]]
    let data := ShortKeyIndex.stored 7 2 11 keys
    (keys.Pairwise fun a b => (compare a b).isLE) ∧
      ∃ x, ShortKeyIndex.parse data = .ok x ∧ x.keys = keys.toArray ∧
        x.CutFrom data ∧ ∀ target, x.SearchSpec target := by
  intro keys data
  have hsorted : keys.Pairwise fun a b => (compare a b).isLE := by
    decide +kernel
  have hparse : ShortKeyIndex.parse data = .ok ⟨7, 2, 11, keys.toArray⟩ :=
    ShortKeyIndex.parse_stored (by decide) (by decide) (by decide) (by decide +kernel)
  exact ⟨hsorted, _, hparse, rfl, short_key_search_exact hparse hsorted⟩

end Columnar
