import Columnar.Page.Values
import Columnar.Proofs.Packing
import Columnar.Proofs.StoredValues
import Mathlib.Data.List.Flatten
import Mathlib.Data.List.Perm.Subperm

/-! # The values of a page

In each encoding, values of a field come back from their encoded form, whatever stands behind it. -/

namespace Columnar.Page

open Decoder (Reads)

/-- Values that come back from a page: those that it can hold, and no string longer than a varint
tells. -/
structure Storable (f : Field) (e : Encoding) (vs : List Value) : Prop where
  holds : ∀ v ∈ vs, f.Holds e v
  short : ∀ bs, Value.bytes bs ∈ vs → bs.length < 2 ^ 64

/-! ## One after the other -/

theorem reads_plain {f : Field} {vs : List Value} (h : Storable f .plain vs) :
    Reads (Decoder.times vs.length f.decode) (vs.flatMap Value.encode) vs :=
  Decoder.reads_times fun v hv =>
    Field.reads_encode (h.holds v hv).kind_eq fun bs hbs => h.short bs (hbs ▸ hv)

/-! ## Distances from the least value -/

/-- The image of a value in the shape in which images are packed. -/
theorem image_eq_ok {f : Field} {v : Value} (ht : f.type.isIntegerLike = true)
    (hk : v.kind = f.type.kind) :
    ∃ n : BitVec 64, image f v = .ok n.toInt ∧ f.ofImage n = .ok v := by
  obtain ⟨n, hn, hof⟩ := Value.ofImage?_image ht hk
  exact ⟨n, by simp [image, hn], by simp [Field.ofImage, hof]⟩

theorem images_eq_ok {f : Field} (ht : f.type.isIntegerLike = true) :
    ∀ vs : List Value, (∀ v ∈ vs, v.kind = f.type.kind) →
      ∃ ns : List (BitVec 64), ns.length = vs.length ∧
        vs.mapM (image f) = .ok (ns.map BitVec.toInt) ∧ ns.mapM f.ofImage = .ok vs := by
  intro vs
  induction vs with
  | nil => exact fun _ => ⟨[], rfl, rfl, rfl⟩
  | cons v vs ih =>
      intro h
      obtain ⟨n, hn, hof⟩ := image_eq_ok ht (h v (by simp))
      obtain ⟨ns, hlen, hns, hofs⟩ := ih fun v' hv' => h v' (by simp [hv'])
      refine ⟨n :: ns, by simp [hlen], ?_, ?_⟩
      · rw [List.mapM_cons, hn, hns]
        rfl
      · rw [List.mapM_cons, hof, hofs]
        rfl

/-- A word is the least one and its distance from that. -/
theorem add_distance {n : BitVec 64} {least : ℤ} (h : least ≤ n.toInt) :
    BitVec.ofInt 64 least + BitVec.ofNat 64 (n.toInt - least).toNat = n := by
  rw [← BitVec.ofInt_natCast, ← BitVec.ofInt_add, Int.toNat_of_nonneg (by omega),
    add_sub_cancel, BitVec.ofInt_toInt]

/-- The reference of packed values is the least image, and all distances from it fit the width. -/
theorem width_spec (first : BitVec 64) (rest : List (BitVec 64)) :
    let images := (first :: rest).map BitVec.toInt
    let least := (rest.map BitVec.toInt).foldl min first.toInt
    let width := bitWidth ((rest.map BitVec.toInt).foldl max first.toInt - least).toNat
    width ≤ 64 ∧ ∀ n ∈ images, least ≤ n ∧ (n - least).toNat < 2 ^ width := by
  intro images least width
  obtain ⟨hleast, hle⟩ : least ∈ images ∧ ∀ n ∈ images, least ≤ n :=
    List.min?_eq_some_iff.mp List.min?_cons'
  obtain ⟨hgreatest, hge⟩ : (rest.map BitVec.toInt).foldl max first.toInt ∈ images ∧
      ∀ n ∈ images, n ≤ (rest.map BitVec.toInt).foldl max first.toInt :=
    List.max?_eq_some_iff.mp List.max?_cons'
  obtain ⟨a, -, ha⟩ := List.mem_map.mp hleast
  obtain ⟨b, -, hb⟩ := List.mem_map.mp hgreatest
  have halow := a.le_toInt
  have hbhigh := b.toInt_lt
  constructor
  · apply bitWidth_le
    omega
  · intro n hn
    refine ⟨hle n hn, ?_⟩
    have hspan : (n - least).toNat ≤
        ((rest.map BitVec.toInt).foldl max first.toInt - least).toNat :=
      Int.toNat_le_toNat (Int.sub_le_sub_right (hge n hn) _)
    exact hspan.trans_lt (bitWidth_spec _)

private theorem ofImage_distances (f : Field) (least : ℤ) :
    ∀ ns : List (BitVec 64), (∀ n ∈ ns, least ≤ n.toInt) →
      (ns.map fun n => (n.toInt - least).toNat).mapM (fun d =>
          f.ofImage (UInt64.ofBitVec (BitVec.ofInt 64 least) + UInt64.ofNat d).toBitVec) =
        ns.mapM f.ofImage := by
  intro ns
  induction ns with
  | nil => exact fun _ => rfl
  | cons n ns ih =>
      intro h
      have hn : (UInt64.ofBitVec (BitVec.ofInt 64 least) +
          UInt64.ofNat (n.toInt - least).toNat).toBitVec = n := add_distance (h n (by simp))
      rw [List.map_cons, List.mapM_cons, List.mapM_cons, ih fun n' hn' => h n' (by simp [hn']), hn]

theorem reads_packed {f : Field} {vs : List Value} {bytes : Bytes}
    (ht : f.type.isIntegerLike = true) (hk : ∀ v ∈ vs, v.kind = f.type.kind)
    (hcount : vs.length * 64 < 2 ^ 64) (henc : encodePacked f vs = .ok bytes) :
    Reads (decodePacked f vs.length) bytes vs := by
  obtain ⟨ns, hlen, himages, hofs⟩ := images_eq_ok ht vs hk
  rw [encodePacked, himages] at henc
  cases ns with
  | nil =>
      obtain rfl : vs = [] := List.eq_nil_of_length_eq_zero hlen.symm
      cases henc
      exact Reads.pure []
  | cons first rest =>
      obtain ⟨hwidth, hfit⟩ := width_spec first rest
      cases henc
      set least := (rest.map BitVec.toInt).foldl min first.toInt
      set width := bitWidth ((rest.map BitVec.toInt).foldl max first.toInt - least).toNat
      set distances := (first :: rest).map fun n => (n.toInt - least).toNat with hdistances
      have hmap : ((first :: rest).map BitVec.toInt).map (fun n => (n - least).toNat) =
          distances := by simp [hdistances]
      have hbyte : (UInt8.ofNat width).toNat = width := by simp; omega
      have hpack : Reads (takeBits width distances.length) (pack width distances) distances := by
        refine reads_pack hwidth ?_ ?_
        · have hle : distances.length * width ≤ vs.length * 64 := by
            rw [hdistances, List.length_map, hlen]
            exact Nat.mul_le_mul_left _ hwidth
          omega
        · intro d hd
          obtain ⟨n, hn, rfl⟩ := List.mem_map.mp hd
          exact (hfit n.toInt (List.mem_map_of_mem hn)).2
      have hvalues : distances.mapM (fun d =>
          f.ofImage (UInt64.ofBitVec (BitVec.ofInt 64 least) + UInt64.ofNat d).toBitVec) =
          .ok vs := by
        rw [hdistances, ofImage_distances f least _ fun n hn =>
          (hfit n.toInt (List.mem_map_of_mem hn)).1]
        exact hofs
      have hpos : ¬ vs.length = 0 := by
        rw [← hlen]
        simp
      rw [decodePacked, if_neg hpos]
      apply (Decoder.reads_word64 (UInt64.ofBitVec (BitVec.ofInt 64 least)) _).bind
      apply (Decoder.reads_byte _ _).bind_cons
      have hcount : vs.length = distances.length := by rw [← hlen, hdistances, List.length_map]
      rw [hmap, hbyte, hcount]
      apply hpack.bind_pure
      rw [hvalues]
      rfl

/-- However far apart the values are, each takes no more than a word. -/
theorem length_encodePacked_le {f : Field} {vs : List Value} {bytes : Bytes}
    (ht : f.type.isIntegerLike = true) (hk : ∀ v ∈ vs, v.kind = f.type.kind)
    (henc : encodePacked f vs = .ok bytes) : bytes.length ≤ 9 + 8 * vs.length := by
  obtain ⟨ns, hlen, himages, -⟩ := images_eq_ok ht vs hk
  rw [encodePacked, himages] at henc
  cases ns with
  | nil =>
      cases henc
      exact Nat.zero_le _
  | cons first rest =>
      obtain ⟨hwidth, -⟩ := width_spec first rest
      cases henc
      have hbits := Nat.mul_le_mul_left vs.length hwidth
      rw [List.length_append, Bytes.length_little, List.length_cons, length_pack, List.length_map,
        List.length_map, hlen, bytesFor]
      change 8 + ((vs.length * bitWidth _ + 7) / 8 + 1) ≤ _
      omega

/-! ## Distinct strings and codes -/

/-- A dictionary spells the strings that went into it: each code leads to its string, and each
string that is known has a code. -/
structure Dictionary.Spells (d : Dictionary) (ss : List Bytes) : Prop where
  size_eq : d.size = d.entries.length
  code_sound : ∀ (bs : Bytes) (c : ℕ), d.code[bs]? = some c → d.entries.reverse[c]? = some bs
  codes_eq : d.codes.reverse.map (d.entries.reverse[·]?) = ss.map some
  entries_mem : ∀ e ∈ d.entries, e ∈ ss
  entries_le : d.entries.length ≤ ss.length
  code_some : ∀ e ∈ d.entries, d.code[e]? ≠ none
  entries_nodup : d.entries.Nodup

theorem Dictionary.spells_empty : ({} : Dictionary).Spells [] where
  size_eq := rfl
  code_sound := by simp
  codes_eq := rfl
  entries_mem := by simp
  entries_le := Nat.le_refl 0
  code_some := by simp
  entries_nodup := .nil

theorem Dictionary.add_of_known {d : Dictionary} {bs : Bytes} {c : ℕ} (hc : d.code[bs]? = some c) :
    d.add bs = { d with codes := c :: d.codes } := by
  rw [add, hc]

theorem Dictionary.add_of_new {d : Dictionary} {bs : Bytes} (hbs : d.code[bs]? = none) :
    d.add bs =
      { code := d.code.insert bs d.size, entries := bs :: d.entries, size := d.size + 1,
        codes := d.size :: d.codes } := by
  rw [add, hbs]

/-- Codes that were given before a string is added still lead to their strings. -/
theorem Dictionary.reverse_cons_of_code {entries : List Bytes} {c : ℕ} {s : Bytes} (bs : Bytes)
    (hc : entries.reverse[c]? = some s) : (bs :: entries).reverse[c]? = some s := by
  rw [List.reverse_cons, List.getElem?_append_left (List.getElem?_eq_some_iff.mp hc).1]
  exact hc

theorem Dictionary.Spells.exists_of_code {d : Dictionary} {ss : List Bytes} (h : d.Spells ss)
    {c : ℕ} (hc : c ∈ d.codes.reverse) : ∃ s, d.entries.reverse[c]? = some s := by
  have hmem : d.entries.reverse[c]? ∈ ss.map some := h.codes_eq ▸ List.mem_map_of_mem hc
  obtain ⟨s, -, hs⟩ := List.mem_map.mp hmem
  exact ⟨s, hs.symm⟩

/-- So what was spelled with the codes before is spelled with them still. -/
theorem Dictionary.Spells.codes_cons {d : Dictionary} {ss : List Bytes} (h : d.Spells ss)
    (bs : Bytes) : d.codes.reverse.map ((bs :: d.entries).reverse[·]?) = ss.map some := by
  rw [← h.codes_eq]
  apply List.map_congr_left
  intro c hc
  obtain ⟨s, hs⟩ := h.exists_of_code hc
  rw [hs, reverse_cons_of_code bs hs]

theorem Dictionary.Spells.add_of_known {d : Dictionary} {ss : List Bytes} (h : d.Spells ss)
    {bs : Bytes} {c : ℕ} (hc : d.code[bs]? = some c) : (d.add bs).Spells (ss ++ [bs]) := by
  rw [Dictionary.add_of_known hc]
  have hsound := h.code_sound bs c hc
  exact {
    size_eq := h.size_eq
    code_sound := h.code_sound
    codes_eq := by simp [h.codes_eq, hsound]
    entries_mem := fun e he => List.mem_append_left _ (h.entries_mem e he)
    entries_le := by
      rw [List.length_append]
      exact Nat.le_add_right_of_le h.entries_le
    code_some := h.code_some
    entries_nodup := h.entries_nodup }

theorem Dictionary.Spells.add_of_new {d : Dictionary} {ss : List Bytes} (h : d.Spells ss)
    {bs : Bytes} (hbs : d.code[bs]? = none) : (d.add bs).Spells (ss ++ [bs]) := by
  rw [Dictionary.add_of_new hbs]
  have hlast : (bs :: d.entries).reverse[d.size]? = some bs := by
    rw [h.size_eq]
    simp
  exact {
    size_eq := by simp [h.size_eq]
    code_sound := by
      intro bs' c hc
      rw [Std.TreeMap.getElem?_insert] at hc
      split at hc
      next heq =>
        obtain rfl : bs = bs' := Std.LawfulEqOrd.eq_of_compare heq
        cases hc
        exact hlast
      next => exact reverse_cons_of_code bs (h.code_sound bs' c hc)
    codes_eq := by
      rw [List.reverse_cons (a := d.size), List.map_append, h.codes_cons bs, List.map_append]
      simp only [List.map_cons, List.map_nil, hlast]
    entries_mem := by
      intro e he
      rcases List.mem_cons.mp he with rfl | he
      · simp
      · exact List.mem_append_left _ (h.entries_mem e he)
    entries_le := by
      rw [List.length_append, List.length_cons]
      exact Nat.add_le_add_right h.entries_le 1
    code_some := by
      intro e he
      rw [Std.TreeMap.getElem?_insert]
      split
      next => simp
      next hne =>
        refine h.code_some e ((List.mem_cons.mp he).resolve_left ?_)
        rintro rfl
        exact hne Std.ReflCmp.compare_self
    entries_nodup := List.nodup_cons.mpr ⟨fun hmem => h.code_some bs hmem hbs, h.entries_nodup⟩ }

theorem Dictionary.Spells.add {d : Dictionary} {ss : List Bytes} (h : d.Spells ss) (bs : Bytes) :
    (d.add bs).Spells (ss ++ [bs]) := by
  cases hcode : d.code[bs]? with
  | some c => exact h.add_of_known hcode
  | none => exact h.add_of_new hcode

theorem Dictionary.spells_foldl (ss : List Bytes) :
    ∀ (d : Dictionary) (before : List Bytes), d.Spells before →
      (ss.foldl Dictionary.add d).Spells (before ++ ss) := by
  induction ss with
  | nil =>
      intro d before h
      simpa using h
  | cons s ss ih =>
      intro d before h
      simpa using ih (d.add s) (before ++ [s]) (h.add s)

theorem Dictionary.spells (ss : List Bytes) : Spells (ss.foldl Dictionary.add {}) ss :=
  spells_foldl ss {} [] spells_empty

theorem mapM_stringOf (f : Field) (ss : List Bytes) :
    (ss.map Value.bytes).mapM (stringOf f) = .ok ss := by
  induction ss with
  | nil => rfl
  | cons s ss ih =>
      rw [List.map_cons, List.mapM_cons, ih]
      rfl

/-- All values of a string field are strings. -/
theorem strings_eq_ok {f : Field} (ht : f.type.isString = true) :
    ∀ vs : List Value, (∀ v ∈ vs, v.kind = f.type.kind) →
      ∃ ss : List Bytes, vs.mapM (stringOf f) = .ok ss ∧ vs = ss.map .bytes := by
  intro vs
  induction vs with
  | nil => exact fun _ => ⟨[], rfl, rfl⟩
  | cons v vs ih =>
      intro h
      obtain ⟨ss, hss, rfl⟩ := ih fun v' hv' => h v' (by simp [hv'])
      have hk : v.kind = .bytes := by
        rw [h v (by simp)]
        simpa [FieldType.isString] using ht
      cases v <;> try cases hk
      case cons.bytes.refl bs =>
        refine ⟨bs :: ss, ?_, rfl⟩
        rw [List.mapM_cons, hss]
        rfl

theorem reads_entry {bs : Bytes} (h : bs.length < 2 ^ 64) :
    Reads entry (Varint.encode bs.length ++ bs) bs :=
  (Varint.reads_encode h).bind (Decoder.reads_take bs _)

namespace Dictionary.Spells

variable {d : Dictionary} {ss : List Bytes}

theorem length_codes (h : d.Spells ss) : d.codes.reverse.length = ss.length := by
  simpa using congrArg List.length h.codes_eq

theorem code_lt (h : d.Spells ss) : ∀ c ∈ d.codes.reverse, c < d.size := by
  intro c hc
  obtain ⟨s, hs⟩ := h.exists_of_code hc
  obtain ⟨hlt, -⟩ := List.getElem?_eq_some_iff.mp hs
  simpa [h.size_eq] using hlt

theorem size_ne_zero (h : d.Spells ss) (hne : ss ≠ []) : d.size ≠ 0 := by
  have hcodes : d.codes.reverse ≠ [] := by
    intro hnil
    apply hne
    apply List.eq_nil_of_length_eq_zero
    rw [← h.length_codes, hnil, List.length_nil]
  obtain ⟨c, hc⟩ := List.exists_mem_of_ne_nil _ hcodes
  exact Nat.ne_zero_of_lt (h.code_lt c hc)

theorem mem_entries (h : d.Spells ss) {s : Bytes} (hs : s ∈ ss) : s ∈ d.entries.reverse := by
  have hmem : some s ∈ d.codes.reverse.map (d.entries.reverse[·]?) :=
    h.codes_eq ▸ List.mem_map_of_mem hs
  obtain ⟨c, -, hc⟩ := List.mem_map.mp hmem
  exact List.mem_of_getElem? hc

theorem size_le (h : d.Spells ss) : d.size ≤ ss.length := h.size_eq ▸ h.entries_le

theorem reads_entries (h : d.Spells ss) (hshort : ∀ s ∈ ss, s.length < 2 ^ 64) :
    Reads (Decoder.times d.size entry)
      (d.entries.reverse.flatMap fun e => Varint.encode e.length ++ e) d.entries.reverse := by
  rw [show d.size = d.entries.reverse.length by rw [h.size_eq, List.length_reverse]]
  exact Decoder.reads_times fun e he =>
    reads_entry (hshort e (h.entries_mem e (List.mem_reverse.mp he)))

theorem size_le_length_entries (h : d.Spells ss) :
    d.size ≤ (d.entries.reverse.flatMap fun e => Varint.encode e.length ++ e).length := by
  rw [h.size_eq, ← List.length_reverse, ← Nat.one_mul d.entries.reverse.length]
  refine Bytes.mul_length_le_flatMap fun e _ => ?_
  rw [List.length_append]
  exact Nat.add_pos_left (Varint.length_encode_pos _) _

/-- A dictionary of strings that were taken from entries is no longer than these, and its codes are
no wider than any that lead to the strings. -/
theorem le_of_subset (h : d.Spells ss) {entries : List Bytes} {w : ℕ}
    (hsub : ss ⊆ entries.take (2 ^ w)) :
    d.size ≤ entries.length ∧
      (d.entries.reverse.flatMap fun e => Varint.encode e.length ++ e).length ≤
        (entries.flatMap fun e => Varint.encode e.length ++ e).length ∧
      bitWidth (d.size - 1) ≤ w := by
  have hmem : d.entries ⊆ entries.take (2 ^ w) := fun e he => hsub (h.entries_mem e he)
  obtain ⟨found, hperm, hfound⟩ := h.entries_nodup.subperm hmem
  have hsize : d.size = found.length := by rw [h.size_eq, hperm.length_eq]
  have hlen : found.length ≤ 2 ^ w ∧ found.length ≤ entries.length := by
    have hle := hfound.length_le
    rw [List.length_take] at hle
    omega
  refine ⟨hsize ▸ hlen.2, ?_, bitWidth_le ?_⟩
  · rw [(((List.reverse_perm d.entries).trans hperm.symm).flatMap_right _).length_eq]
    exact ((hfound.trans (List.take_sublist _ _)).flatMap _).length_le
  · have hpos := Nat.two_pow_pos w
    omega

theorem reads_codes (h : d.Spells ss) (hcount : ss.length * 64 < 2 ^ 64)
    (hwidth : bitWidth (d.size - 1) ≤ 64) :
    Reads (takeBits (bitWidth (d.size - 1)) ss.length)
      (pack (bitWidth (d.size - 1)) d.codes.reverse) d.codes.reverse := by
  rw [← h.length_codes]
  refine reads_pack hwidth ?_ fun c hc => ?_
  · have hmul := Nat.mul_le_mul_left d.codes.reverse.length hwidth
    have hlen := h.length_codes
    omega
  · have hbits := bitWidth_spec (d.size - 1)
    have hlt := h.code_lt c hc
    omega

end Dictionary.Spells

private theorem lookup_codes (table : Array Bytes) (size : ℕ) :
    ∀ (codes : List ℕ) (ss : List Bytes), codes.map (table[·]?) = ss.map some →
      (codes.mapM fun c => match table[c]? with
        | some e => Except.ok (Value.bytes e)
        | none => .error (Error.corruption (.dictionaryCode c size))) = .ok (ss.map .bytes) := by
  intro codes
  induction codes with
  | nil =>
      intro ss h
      obtain rfl : ss = [] := by simpa using h.symm
      rfl
  | cons c codes ih =>
      intro ss h
      cases ss with
      | nil => simp at h
      | cons s ss =>
          simp only [List.map_cons, List.cons.injEq] at h
          rw [List.mapM_cons, h.1, ih ss h.2]
          rfl

/-- The stored dictionary of strings that are not too long for the field reads as those strings. -/
theorem Dictionary.Spells.reads {d : Dictionary} {ss : List Bytes} (h : d.Spells ss) (f : Field)
    (hne : ss ≠ []) (hcount : ss.length * 64 < 2 ^ 64) (hshort : ∀ s ∈ ss, s.length < 2 ^ 64)
    (hfits : ∀ s ∈ ss, f.fits s.length = true) :
    Reads (decodeDictionary f ss.length)
      (Varint.encode d.size ++ d.entries.reverse.flatMap (fun e => Varint.encode e.length ++ e)
        ++ UInt8.ofNat (bitWidth (d.size - 1)) :: pack (bitWidth (d.size - 1)) d.codes.reverse)
      (ss.map .bytes) := by
  have hsize := h.size_ne_zero hne
  have hle := h.size_le
  have hpos : ¬ ss.length = 0 := by simpa using hne
  have hwidth : bitWidth (d.size - 1) ≤ 64 := bitWidth_le (by omega)
  have hbyte : (UInt8.ofNat (bitWidth (d.size - 1))).toNat = bitWidth (d.size - 1) := by
    simp
    omega
  have hall : d.entries.reverse.all (f.fits ·.length) = true :=
    List.all_eq_true.mpr fun e he => hfits e (h.entries_mem e (List.mem_reverse.mp he))
  have hvalues := lookup_codes d.entries.reverse.toArray d.size d.codes.reverse ss
    (by simpa using h.codes_eq)
  rw [decodeDictionary, if_neg hpos, List.append_assoc]
  refine (Varint.reads_encode (by omega)).bind (Reads.remaining fun left hleft => ?_)
  have hroom : ¬ (d.size = 0 ∨ left < d.size) := by
    have hentries := h.size_le_length_entries
    rw [List.length_append] at hleft
    omega
  rw [if_neg hroom]
  apply (h.reads_entries hshort).bind
  rw [if_pos hall]
  apply (Decoder.reads_byte _ _).bind_cons
  rw [hbyte]
  exact (h.reads_codes hcount hwidth).bind_pure (congrArg Decoder.ofExcept hvalues)

/-- Strings that were taken from entries make a dictionary that is no longer. -/
theorem length_encodeDictionary_le {f : Field} {ss entries : List Bytes} {w : ℕ} {bytes : Bytes}
    (hsub : ss ⊆ entries.take (2 ^ w))
    (henc : encodeDictionary f (ss.map .bytes) = .ok bytes) :
    ∃ size ≤ entries.length, bytes.length ≤ (Varint.encode size).length +
      (entries.flatMap fun e => Varint.encode e.length ++ e).length + 1 +
        bytesFor (ss.length * w) := by
  rw [encodeDictionary, mapM_stringOf] at henc
  cases ss with
  | nil =>
      cases henc
      exact ⟨0, Nat.zero_le _, Nat.zero_le _⟩
  | cons s ss =>
      cases henc
      have hspells := Dictionary.spells (s :: ss)
      obtain ⟨hsize, hle, hwidth⟩ := hspells.le_of_subset hsub
      have hbits := Nat.mul_le_mul_left (s :: ss).length hwidth
      refine ⟨_, hsize, ?_⟩
      simp only [List.length_append, List.length_cons, length_pack, hspells.length_codes] at hbits ⊢
      simp only [bytesFor]
      omega

theorem reads_dictionary {f : Field} {vs : List Value} {bytes : Bytes}
    (ht : f.type.isString = true) (h : Storable f .dictionary vs) (hcount : vs.length * 64 < 2 ^ 64)
    (henc : encodeDictionary f vs = .ok bytes) :
    Reads (decodeDictionary f vs.length) bytes vs := by
  obtain ⟨ss, hss, rfl⟩ := strings_eq_ok ht vs fun v hv => (h.holds v hv).kind_eq
  rw [encodeDictionary, hss] at henc
  rw [List.length_map] at hcount ⊢
  cases ss with
  | nil =>
      cases henc
      exact Reads.pure []
  | cons s ss =>
      cases henc
      have hspells := Dictionary.spells (s :: ss)
      refine hspells.reads f (List.cons_ne_nil s ss) hcount ?_ ?_
      · exact fun e he => h.short e (List.mem_map_of_mem he)
      · exact fun e he => (h.holds _ (List.mem_map_of_mem he)).fits rfl e rfl

/-! ## All encodings -/

/-- Values come back from their encoded form, and exactly its bytes are taken. -/
theorem reads_encodeValues {f : Field} {e : Encoding} {vs : List Value} {bytes : Bytes}
    (he : e.supports f.type = true) (h : Storable f e vs) (hcount : vs.length * 64 < 2 ^ 64)
    (henc : encodeValues f e vs = .ok bytes) : Reads (decodeValues f e vs.length) bytes vs := by
  cases e with
  | plain =>
      cases henc
      exact reads_plain h
  | bitPacked => exact reads_packed he (fun v hv => (h.holds v hv).kind_eq) hcount henc
  | dictionary => exact reads_dictionary he h hcount henc

theorem length_le_length_flatMap {α : Type} {g : α → Bytes} {x : α} {xs : List α} (h : x ∈ xs) :
    (g x).length ≤ (xs.flatMap g).length := by
  obtain ⟨front, back, rfl⟩ := List.append_of_mem h
  simp only [List.flatMap_append, List.flatMap_cons, List.length_append]
  omega

/-- No string is longer than the values that it is among. -/
theorem length_le_encodeValues {f : Field} {e : Encoding} {vs : List Value} {bytes bs : Bytes}
    (he : e.supports f.type = true) (h : ∀ v ∈ vs, v.kind = f.type.kind)
    (henc : encodeValues f e vs = .ok bytes) (hbs : Value.bytes bs ∈ vs) :
    bs.length ≤ bytes.length := by
  cases e with
  | plain =>
      cases henc
      have hle := length_le_length_flatMap (g := Value.encode) hbs
      rw [Value.encode, List.length_append] at hle
      omega
  | bitPacked =>
      obtain ⟨image, himage, -⟩ := Value.ofImage?_image he (h _ hbs)
      cases himage
  | dictionary =>
      obtain ⟨ss, hss, rfl⟩ := strings_eq_ok he vs h
      obtain ⟨s, hs, heq⟩ := List.mem_map.mp hbs
      cases heq
      rw [encodeValues, encodeDictionary, hss] at henc
      cases ss with
      | nil => cases hs
      | cons s' ss =>
          cases henc
          have hspells := Dictionary.spells (s' :: ss)
          have hle := length_le_length_flatMap (g := fun e : Bytes => Varint.encode e.length ++ e)
            (hspells.mem_entries hs)
          simp only [List.length_append] at hle ⊢
          omega

/-- Values of a field can be written in each encoding that its type supports. -/
theorem encodeValues_eq_ok {f : Field} {e : Encoding} {vs : List Value}
    (he : e.supports f.type = true) (h : ∀ v ∈ vs, v.kind = f.type.kind) :
    ∃ bytes, encodeValues f e vs = .ok bytes := by
  cases e with
  | plain => exact ⟨_, rfl⟩
  | bitPacked =>
      obtain ⟨ns, -, himages, -⟩ := images_eq_ok he vs h
      rw [encodeValues, encodePacked, himages]
      cases ns <;> exact ⟨_, rfl⟩
  | dictionary =>
      obtain ⟨ss, hss, -⟩ := strings_eq_ok he vs h
      rw [encodeValues, encodeDictionary, hss]
      cases ss <;> exact ⟨_, rfl⟩

/-- Values that memory can hold. Each takes at least 32 bytes, and all of them less than 2 ^ 63; a
string has a length of a word. -/
structure Addressable (vs : List Value) : Prop where
  count : vs.length < 2 ^ 58
  strings : ∀ bs, Value.bytes bs ∈ vs → bs.length < 2 ^ 64

/-- Values that a field takes can be written in each encoding that its type supports. They come back
from what is written, and whatever stands behind it is left. -/
theorem values_read_back {f : Field} {e : Encoding} {vs : List Value}
    (he : e.supports f.type = true) (h : ∀ v ∈ vs, f.check v = .ok ()) (hmem : Addressable vs) :
    ∃ bytes, encodeValues f e vs = .ok bytes ∧
      ∀ rest, decodeValues f e vs.length (bytes ++ rest) = .ok vs rest := by
  have hadmits : ∀ v ∈ vs, f.Admits v := h
  obtain ⟨bytes, hbytes⟩ := encodeValues_eq_ok he fun v hv => (hadmits v hv).kind_eq
  have hstorable : Storable f e vs := ⟨fun v hv => (hadmits v hv).holds e, hmem.strings⟩
  have hcount : vs.length * 64 < 2 ^ 64 := by
    have := hmem.count
    omega
  exact ⟨bytes, hbytes, reads_encodeValues he hstorable hcount hbytes⟩

/-- Numbers as far apart as can be, strings that come again, numbers that are none, and no values at
all. -/
theorem values_read_back_extremes :
    let numbers : List Value := [.int64 (BitVec.intMin 64), .int64 (BitVec.intMax 64), .int64 0]
    let strings : List Value := [.bytes [97, 98], .bytes [], .bytes [97, 98]]
    let floats : List Value := [.float32 0x7fc00001, .float32 0x80000000]
    (∃ bytes, encodeValues ⟨.bigint, 0⟩ .bitPacked numbers = .ok bytes ∧
        ∀ rest, decodeValues ⟨.bigint, 0⟩ .bitPacked 3 (bytes ++ rest) = .ok numbers rest) ∧
      (∃ bytes, encodeValues ⟨.varchar, 2⟩ .dictionary strings = .ok bytes ∧
        ∀ rest, decodeValues ⟨.varchar, 2⟩ .dictionary 3 (bytes ++ rest) = .ok strings rest) ∧
      (∃ bytes, encodeValues ⟨.float, 0⟩ .plain floats = .ok bytes ∧
        ∀ rest, decodeValues ⟨.float, 0⟩ .plain 2 (bytes ++ rest) = .ok floats rest) ∧
      ∃ bytes, encodeValues ⟨.bigint, 0⟩ .bitPacked [] = .ok bytes ∧
        ∀ rest, decodeValues ⟨.bigint, 0⟩ .bitPacked 0 (bytes ++ rest) = .ok [] rest := by
  intro numbers strings floats
  have hstrings : ∀ bs, Value.bytes bs ∈ strings → bs.length < 2 ^ 64 := by
    intro bs hbs
    have hlen : bs.length ≤ 2 := by
      simp only [strings, List.mem_cons, Value.bytes.injEq, List.not_mem_nil, or_false] at hbs
      rcases hbs with rfl | rfl | rfl <;> simp
    omega
  refine ⟨values_read_back rfl ?_ ⟨by simp [numbers], by simp [numbers]⟩,
    values_read_back rfl ?_ ⟨by simp [strings], hstrings⟩,
    values_read_back rfl ?_ ⟨by simp [floats], by simp [floats]⟩,
    values_read_back rfl (by simp) ⟨by simp, by simp⟩⟩
  · simp only [numbers, List.forall_mem_cons]
    exact ⟨rfl, rfl, rfl, nofun⟩
  · simp only [strings, List.forall_mem_cons]
    exact ⟨rfl, rfl, rfl, nofun⟩
  · simp only [floats, List.forall_mem_cons]
    exact ⟨rfl, rfl, nofun⟩

end Columnar.Page
