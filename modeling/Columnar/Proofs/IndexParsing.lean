import Columnar.Proofs.ColumnCells
import Columnar.Proofs.PageLookup

/-! # Which ordinal indexes are accepted

An ordinal index is accepted exactly if it is the stored form of entries that are in order. -/

namespace Columnar

namespace Decoder

variable {α β : Type} {p : Decoder α}

/-- What the reader takes off the front is the stored form of what it answers. -/
def Spells (p : Decoder α) (encode : α → Bytes) : Prop :=
  ∀ bs a rest, p bs = .ok a rest → bs = encode a ++ rest

theorem take_eq_ok_iff {n : ℕ} {what : String} {bs found rest : Bytes} :
    take n what bs = .ok found rest ↔ bs = found ++ rest ∧ found.length = n := by
  constructor
  · intro h
    rcases Nat.lt_or_ge bs.length n with hlt | hle
    · rw [take_eq_error hlt] at h
      cases h
    · rw [take_eq_ok hle] at h
      cases h
      exact ⟨(List.take_append_drop n bs).symm, List.length_take_of_le hle⟩
  · rintro ⟨rfl, rfl⟩
    exact take_append

theorem spells_word {k : ℕ} {what : String} {n : ℕ} {bs rest : Bytes}
    (h : word k what bs = .ok n rest) : bs = Bytes.little k n ++ rest ∧ n < 256 ^ k := by
  obtain ⟨found, _, htake, h⟩ := bind_eq_ok h
  cases h
  obtain ⟨rfl, rfl⟩ := take_eq_ok_iff.mp htake
  exact ⟨by rw [Bytes.little_toNat], Bytes.toNat_lt found⟩

theorem spells_word32 (what : String) :
    Spells (word32 what) fun n => Bytes.little 4 n.toNat := by
  intro bs a rest h
  obtain ⟨n, _, hword, h⟩ := bind_eq_ok h
  cases h
  obtain ⟨rfl, hn⟩ := spells_word hword
  simp only [UInt32.toNat_ofNat_of_lt' hn]

theorem spells_word64 (what : String) :
    Spells (word64 what) fun n => Bytes.little 8 n.toNat := by
  intro bs a rest h
  obtain ⟨n, _, hword, h⟩ := bind_eq_ok h
  cases h
  obtain ⟨rfl, hn⟩ := spells_word hword
  simp only [UInt64.toNat_ofNat_of_lt' hn]

theorem spells_flag (what : String) : Spells (flag what) fun b => [if b then 1 else 0] := by
  intro bs b rest h
  obtain ⟨byte, _, hbyte, hflag⟩ := bind_eq_ok h
  cases bs with
  | nil => cases hbyte
  | cons _ bs =>
      cases hbyte
      split at hflag
      next hzero =>
        cases hflag
        rw [hzero]
        rfl
      next =>
        split at hflag
        next hone =>
          cases hflag
          rw [hone]
          rfl
        next => cases hflag

theorem spells_times {encode : α → Bytes} (hp : Spells p encode) {n : ℕ} {bs rest : Bytes}
    {as : List α} (h : times n p bs = .ok as rest) :
    as.length = n ∧ bs = as.flatMap encode ++ rest := by
  induction n generalizing bs as with
  | zero =>
      cases h
      exact ⟨rfl, rfl⟩
  | succ n ih =>
      rw [times_succ] at h
      obtain ⟨a, left, ha, h⟩ := bind_eq_ok h
      obtain ⟨more, left', hmore, h⟩ := bind_eq_ok h
      cases h
      obtain ⟨hlen, hleft⟩ := ih hmore
      rw [hp _ _ _ ha, hleft, List.flatMap_cons, List.append_assoc]
      exact ⟨congrArg (· + 1) hlen, rfl⟩

end Decoder

open Decoder (Spells)

theorem PageEntry.spells_decode : Spells PageEntry.decode PageEntry.encode := by
  intro bs e rest h
  obtain ⟨firstOrdinal, _, hfirst, h⟩ := bind_eq_ok h
  obtain ⟨offset, _, hoffset, h⟩ := bind_eq_ok h
  obtain ⟨size, _, hsize, h⟩ := bind_eq_ok h
  cases h
  rw [Decoder.spells_word64 _ _ _ _ hfirst, Decoder.spells_word64 _ _ _ _ hoffset,
    Decoder.spells_word32 _ _ _ _ hsize, PageEntry.encode]
  simp only [List.append_assoc]

namespace OrdinalIndex

/-- Entries that are not misplaced begin at 0, or behind those before, and grow. -/
theorem placed_of_misplaced?_eq_none {numRows position next : ℕ} {entries : List PageEntry}
    (h : misplaced? numRows position next entries = none) :
    (∀ e ∈ entries.head?, if position = 0 then e.firstOrdinal.toNat = 0
        else next ≤ e.firstOrdinal.toNat) ∧
      (entries.Pairwise fun d e => d.firstOrdinal.toNat < e.firstOrdinal.toNat) ∧
        ∀ e ∈ entries, e.firstOrdinal.toNat < numRows := by
  induction entries generalizing position next with
  | nil => simp
  | cons e entries ih =>
      rw [misplaced?] at h
      by_cases hplace : (if position = 0 then e.firstOrdinal.toNat = 0
          else next ≤ e.firstOrdinal.toNat) ∧ e.firstOrdinal.toNat < numRows
      · rw [if_pos hplace] at h
        obtain ⟨hhead, hasc, hbelow⟩ := ih h
        simp only [Nat.add_eq_zero_iff, one_ne_zero, and_false, if_false] at hhead
        refine ⟨by simpa using hplace.1, List.pairwise_cons.mpr ⟨fun d hd => ?_, hasc⟩, ?_⟩
        · -- the next entry is behind this one, and all others are behind that
          cases entries with
          | nil => cases hd
          | cons d' entries =>
              have hnext := hhead d' rfl
              rcases List.mem_cons.mp hd with rfl | hd
              · omega
              · have hlt := (List.pairwise_cons.mp hasc).1 d hd
                omega
        · intro d hd
          rcases List.mem_cons.mp hd with rfl | hd
          · exact hplace.2
          · exact hbelow d hd
      · rw [if_neg hplace] at h
        cases h

/-- An ordinal index is accepted exactly if it is stored as its entries are and these are in
order. -/
theorem parse_eq_ok_iff {data : Bytes} {numRows : ℕ} {x : OrdinalIndex} :
    parse data numRows = .ok x ↔ x.numRows = numRows ∧ x.entries.size < 2 ^ 32 ∧
      Ordered numRows x.entries.toList ∧ data = encode x.entries.toList := by
  constructor
  · intro h
    have hdecode : ∃ rest, decode numRows data = .ok x rest := by
      unfold parse at h
      split at h
      next index rest heq =>
        cases h
        exact ⟨rest, heq⟩
      next => cases h
    obtain ⟨rest, hdecode⟩ := hdecode
    obtain ⟨count, body, hcount, hrun⟩ := bind_eq_ok hdecode
    obtain ⟨left, _, hleft, hrun⟩ := bind_eq_ok hrun
    cases hleft
    obtain ⟨hdata, hlt⟩ := Decoder.spells_word hcount
    obtain ⟨hsize, hrun⟩ := check_eq_ok hrun
    obtain ⟨entries, tail, hentries, hrun⟩ := bind_eq_ok hrun
    obtain ⟨hcount', hbody⟩ := Decoder.spells_times PageEntry.spells_decode hentries
    cases hplaced : misplaced? numRows 0 0 entries with
    | some e => rw [hplaced] at hrun; cases hrun
    | none =>
        rw [hplaced] at hrun
        obtain ⟨hempty, hrun⟩ := check_eq_ok hrun
        cases hrun
        obtain ⟨hhead, hasc, hbelow⟩ := placed_of_misplaced?_eq_none hplaced
        -- the entries take up all that is left, so nothing comes behind them
        have hlen : (entries.flatMap PageEntry.encode).length =
            entries.length * PageEntry.size := by
          simp [List.length_flatMap, List.map_const']
        have htail : rest = [] := by
          rw [ne_eq, not_not, hbody, List.length_append, hlen, hcount'] at hsize
          exact List.length_eq_zero_iff.mp (by omega)
        refine ⟨rfl, by simpa [hcount'] using hlt, ⟨by simpa using hhead, hasc, hbelow, ?_⟩, ?_⟩
        · rw [not_not, Bool.eq_iff_iff, List.isEmpty_iff, beq_iff_eq] at hempty
          exact hempty
        · rw [hdata, hbody, htail, encode, hcount', List.append_nil]
  · rintro ⟨rfl, hcount, hordered, rfl⟩
    rw [parse_encode hordered (by simpa using hcount), Array.toArray_toList]

end OrdinalIndex

end Columnar
