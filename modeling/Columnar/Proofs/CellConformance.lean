import Columnar.Proofs.Consumption
import Columnar.Proofs.SegmentFailures
import Columnar.Proofs.SegmentRoundTrip

/-! # Which cells a reader returns

Whatever the bytes of a page are, its values are values of the type of the column, and those out of
a dictionary fit the declared length. There are as many as its null map leaves places for. Nulls are
not looked at: that a column has none where it must not is up to its writer. -/

namespace Columnar

open Decoder (Consumes)

/-- What is found for a whole list was found for one of its items. -/
theorem mem_of_mapM_eq_ok {α β : Type} {g : α → Except Error β} {xs : List α} {ys : List β}
    (h : xs.mapM g = .ok ys) {y : β} (hy : y ∈ ys) : ∃ x, g x = .ok y := by
  obtain ⟨k, hk⟩ := List.mem_iff_getElem?.mp hy
  obtain ⟨x, -, hx⟩ := forall₂_getElem? (of_mapM_eq_ok h) hk
  exact ⟨x, hx⟩

/-! ## Values -/

theorem Value.kind_of_ofImage? {t : FieldType} {image : BitVec 64} {v : Value}
    (h : ofImage? t image = some v) : v.kind = t.kind := by
  unfold ofImage? at h
  repeat' split at h
  all_goals cases h <;> rfl

theorem Field.kind_of_ofImage {f : Field} {image : BitVec 64} {v : Value}
    (h : f.ofImage image = .ok v) : v.kind = f.type.kind := by
  unfold ofImage at h
  split at h
  next v' hv =>
    cases h
    exact Value.kind_of_ofImage? hv
  next => split at h <;> cases h

namespace Page

variable {f : Field} {e : Encoding}

/-- What is known of `count` values that were read from `n` bytes. Written again they take no more
bytes, or few. -/
structure Rewritable (f : Field) (e : Encoding) (count n : ℕ) (vs : List Value) : Prop where
  length_eq : vs.length = count
  storable : Storable f e vs
  length_le : ∀ bytes, encodeValues f e vs = .ok bytes → bytes.length ≤ max n (9 + 8 * count)

theorem rewritable_nil {count : ℕ} (h : count = 0) (n : ℕ) : Rewritable f e count n [] := by
  subst h
  refine ⟨rfl, ⟨by simp, by simp⟩, fun bytes hbytes => ?_⟩
  cases e <;> cases hbytes <;> exact Nat.zero_le _

theorem consumes_plain (count : ℕ) :
    Consumes (decodeValues f .plain count) (Rewritable f .plain count) := by
  have hvalues : Consumes (Decoder.times count f.decode) fun n vs =>
      vs.length = count ∧ (vs.flatMap Value.encode).length ≤ n :=
    Decoder.consumes_times ((Field.consumes_decode f).mono fun _ _ h => h.2) count
  have hkinds := Decoder.yields_times ((Field.consumes_decode f).yields fun _ _ h => h.1) count
  have hshort := Decoder.yields_times (Field.yields_short f) count
  apply ((hvalues.and_yields hkinds).and_yields hshort).mono
  rintro n vs ⟨⟨⟨hlen, hle⟩, hkinds⟩, hshort⟩
  refine ⟨hlen, ⟨fun v hv => ⟨hkinds v hv, nofun⟩, fun bs hbs => hshort _ hbs bs rfl⟩, ?_⟩
  rintro _ ⟨⟩
  exact hle.trans (le_max_left _ _)

theorem consumes_decodePacked (ht : f.type.isIntegerLike = true) (count : ℕ) :
    Consumes (decodePacked f count) (Rewritable f .bitPacked count) := by
  refine .ite (fun hzero => .pure (rewritable_nil hzero 0)) fun _ => ?_
  refine (Decoder.consumes_word64 _).bind fun reference n _ => ?_
  refine (Decoder.consumes_byte _).bind fun width m _ => ?_
  refine (consumes_takeBits _ _).bind fun distances k hdistances => ?_
  refine Decoder.consumes_ofExcept fun vs hvs => ?_
  have hlen : vs.length = count := (of_mapM_eq_ok hvs).length_eq.symm.trans hdistances.2.1
  have hkinds : ∀ v ∈ vs, v.kind = f.type.kind := by
    intro v hv
    obtain ⟨d, hd⟩ := mem_of_mapM_eq_ok hvs hv
    exact Field.kind_of_ofImage hd
  refine ⟨hlen, ⟨fun v hv => ⟨hkinds v hv, nofun⟩, fun bs hbs => ?_⟩, fun bytes hbytes => ?_⟩
  · obtain ⟨image, himage, -⟩ := Value.ofImage?_image ht (hkinds _ hbs)
    cases himage
  · have hle := length_encodePacked_le ht hkinds hbytes
    rw [hlen] at hle
    exact hle.trans (le_max_right _ _)

/-- Codes of `w` bits that all lead to an entry stand for strings among the first `2 ^ w`. -/
private theorem strings_of_codes {entries : List Bytes} {w size : ℕ} {codes : List ℕ}
    {vs : List Value} (hcodes : ∀ c ∈ codes, c < 2 ^ w)
    (h : (codes.mapM fun c => match entries.toArray[c]? with
      | some e => Except.ok (Value.bytes e)
      | none => .error (Error.corruption (.dictionaryCode c size))) = .ok vs) :
    ∃ ss : List Bytes, vs = ss.map .bytes ∧ ss.length = codes.length ∧
      ss ⊆ entries.take (2 ^ w) := by
  have hall := of_mapM_eq_ok h
  clear h
  induction hall with
  | nil => exact ⟨[], rfl, rfl, List.nil_subset _⟩
  | @cons c v codes vs hv hvs ih =>
      obtain ⟨hc, hrest⟩ := List.forall_mem_cons.mp hcodes
      obtain ⟨ss, rfl, hlen, hsub⟩ := ih hrest
      split at hv
      next entry hentry =>
        cases hv
        rw [List.getElem?_toArray, ← List.getElem?_take_of_lt hc] at hentry
        exact ⟨entry :: ss, rfl, congrArg (· + 1) hlen,
          List.cons_subset.mpr ⟨List.mem_of_getElem? hentry, hsub⟩⟩
      next => cases hv

theorem storable_strings (ht : f.type.isString = true) {ss : List Bytes}
    (hfits : ∀ s ∈ ss, f.fits s.length = true) (hshort : ∀ s ∈ ss, s.length < 2 ^ 64) :
    Storable f .dictionary (ss.map .bytes) := by
  have hkind : Kind.bytes = f.type.kind := by
    cases htype : f.type <;> rw [htype] at ht <;> first | rfl | cases ht
  constructor
  · intro v hv
    obtain ⟨s, hs, rfl⟩ := List.mem_map.mp hv
    refine ⟨hkind, fun _ _ hbs => ?_⟩
    cases hbs
    exact hfits _ hs
  · intro bs hbs
    obtain ⟨s, hs, heq⟩ := List.mem_map.mp hbs
    cases heq
    exact hshort _ hs

theorem consumes_decodeDictionary (ht : f.type.isString = true) (count : ℕ) :
    Consumes (decodeDictionary f count) (Rewritable f .dictionary count) := by
  refine .ite (fun hzero => .pure (rewritable_nil hzero 0)) fun _ => ?_
  refine Varint.consumes_decode.bind fun size k hsize => ?_
  refine Decoder.consumes_remaining.bind fun left _ hleft => .check fun _ => ?_
  have hentries : Consumes (Decoder.times size entry) fun n es => es.length = size ∧
      (es.flatMap fun e => Varint.encode e.length ++ e).length ≤ n :=
    Decoder.consumes_times consumes_entry size
  refine (hentries.and_yields (Decoder.yields_times yields_entry size)).bind ?_
  rintro entries m ⟨⟨hlen, hle⟩, hshort⟩
  refine .ite (fun hfits => ?_) fun _ => .throw_bind
  refine (Decoder.consumes_byte _).bind fun width _ hone => ?_
  refine (consumes_takeBits _ _).bind fun codes bits hcodes => ?_
  refine Decoder.consumes_ofExcept fun vs hvs => ?_
  obtain ⟨hbits, hcount, hlow⟩ := hcodes
  obtain ⟨ss, rfl, hlength, hsub⟩ := strings_of_codes hlow hvs
  rw [hcount] at hlength
  have hmem : ∀ s ∈ ss, s ∈ entries := fun s hs => List.mem_of_mem_take (hsub hs)
  refine ⟨by rw [List.length_map, hlength], storable_strings ht
    (fun s hs => List.all_eq_true.mp hfits s (hmem s hs)) fun s hs => hshort s (hmem s hs), ?_⟩
  intro bytes hbytes
  obtain ⟨distinct, hdistinct, hshorter⟩ := length_encodeDictionary_le hsub hbytes
  have hfirst := hsize distinct (hdistinct.trans hlen.le)
  rw [hlength] at hshorter
  omega

theorem consumes_decodeValues (h : e.supports f.type = true) (count : ℕ) :
    Consumes (decodeValues f e count) (Rewritable f e count) := by
  cases e with
  | plain => exact consumes_plain count
  | bitPacked => exact consumes_decodePacked h count
  | dictionary => exact consumes_decodeDictionary h count

/-! ## Cells -/

/-- Whether the bit of a row is set in a bitmap. -/
def marks (bitmap : Bytes) (row : ℕ) : Bool := (bitmap[row / 8]?.getD 0).toNat.testBit (row % 8)

/-- The parts of a body: the number of its cells, a flag, a bitmap if the flag is set, and no more
and no fewer values than the bitmap leaves cells that are not null. -/
structure Layout (f : Field) (e : Encoding) (body : Bytes) (flag : UInt8) (bitmap values : Bytes)
    (cells : List Cell) : Prop where
  count : Varint.decode body = .ok cells.length (flag :: (bitmap ++ values))
  flagged : flag = 0 ∧ bitmap = [] ∨ flag = 1 ∧ bitmap.length = bytesFor cells.length
  nulls : ∀ row < cells.length, cells[row]? = some none ↔ marks bitmap row = true
  values : decodeValues f e (cells.filterMap id).length values = .ok (cells.filterMap id) []

private theorem unpack_marks {rows : ℕ} {bitmap : Bytes} (h : bitmap.length = bytesFor rows) :
    (unpack 1 rows bitmap).map (fun bit => decide (bit = 1)) =
      (List.range rows).map (marks bitmap) := by
  rw [unpack_eq]
  refine List.ext_getElem? fun row => ?_
  rw [List.getElem?_map, List.getElem?_map]
  rcases Nat.lt_or_ge row rows with hlt | hge
  · have hbyte : row / 8 < bitmap.length := by
      rw [h, bytesFor]
      omega
    have hbit := toNat_bit (List.getElem?_eq_getElem hbyte)
    rw [getElem?_lowDigits _ _ _ _ hlt, List.getElem?_range hlt, Nat.one_mul, pow_one, hbit]
    simp [marks, hbyte, Nat.testBit_eq_decide_div_mod_eq]
  · rw [List.getElem?_eq_none (by rwa [length_lowDigits]),
      List.getElem?_eq_none (by rwa [List.length_range])]
    rfl

theorem of_decodeNulls_eq_ok {rows : ℕ} {nulls : List Bool} {bs rest : Bytes}
    (h : decodeNulls rows bs = .ok nulls rest) : ∃ flag bitmap, bs = flag :: (bitmap ++ rest) ∧
      (flag = 0 ∧ bitmap = [] ∨ flag = 1 ∧ bitmap.length = bytesFor rows) ∧
        nulls = (List.range rows).map (marks bitmap) := by
  obtain ⟨hasNulls, _, hflag, hread⟩ := bind_eq_ok h
  obtain rfl := Decoder.spells_flag _ _ _ _ hflag
  cases hasNulls with
  | false =>
      cases hread
      refine ⟨0, [], rfl, .inl ⟨rfl, rfl⟩, ?_⟩
      have hclear : marks [] = fun _ => false := by
        funext row
        simp [marks]
      rw [hclear, List.map_const', List.length_range]
  | true =>
      obtain ⟨bitmap, _, htake, hread⟩ := bind_eq_ok hread
      cases hread
      obtain ⟨rfl, hlen⟩ := Decoder.take_eq_ok_iff.mp htake
      exact ⟨1, bitmap, rfl, .inr ⟨rfl, hlen⟩, unpack_marks hlen⟩

/-- As many values as there are places for them are the values of some cells. -/
theorem exists_cells (nulls : List Bool) : ∀ values : List Value,
    values.length = nulls.count false →
      ∃ cells : List Cell, cells.map Option.isNone = nulls ∧ cells.filterMap id = values := by
  induction nulls with
  | nil =>
      intro values hlen
      exact ⟨[], rfl, (List.eq_nil_of_length_eq_zero hlen).symm⟩
  | cons null nulls ih =>
      intro values hlen
      cases null with
      | true =>
          obtain ⟨cells, hnulls, hvalues⟩ := ih values (by simpa using hlen)
          exact ⟨none :: cells, by simp [hnulls], by simpa using hvalues⟩
      | false =>
          cases values with
          | nil => simp at hlen
          | cons v values =>
              obtain ⟨cells, hnulls, hvalues⟩ := ih values (by simpa using hlen)
              exact ⟨some v :: cells, by simp [hnulls], by simpa using hvalues⟩

/-- Whatever reads as a body has these parts. -/
theorem layout_of_decodeBody (he : e.supports f.type = true) {rows : ℕ} {cells : List Cell}
    {bs rest : Bytes} (h : decodeBody f e rows bs = .ok cells rest) :
    ∃ flag bitmap values, Layout f e bs flag bitmap values cells := by
  have hlength := length_of_decodeBody h
  obtain ⟨count, _, hcount, h⟩ := bind_eq_ok h
  obtain ⟨hrows, h⟩ := check_eq_ok h
  obtain rfl := not_not.mp hrows
  obtain ⟨nulls, left, hnulls, h⟩ := bind_eq_ok h
  obtain ⟨vs, _, hvalues, h⟩ := bind_eq_ok h
  obtain ⟨left, _, hleft, h⟩ := bind_eq_ok h
  cases hleft
  obtain ⟨hend, h⟩ := check_eq_ok h
  cases h
  obtain ⟨flag, bitmap, rfl, hbitmap, hmarks⟩ := of_decodeNulls_eq_ok hnulls
  obtain ⟨n, -, hread⟩ := consumes_decodeValues he _ _ _ _ hvalues
  obtain ⟨cells, rfl, rfl⟩ := exists_cells nulls vs hread.length_eq
  rw [weave_eq] at hlength ⊢
  rw [count_false_isNone, List.eq_nil_of_length_eq_zero (not_not.mp hend)] at hvalues
  refine ⟨flag, bitmap, _, hlength ▸ hcount, hlength ▸ hbitmap, fun row hrow => ?_, hvalues⟩
  have hrow' := congrArg (·[row]?) hmarks
  simp only [List.getElem?_map, List.getElem?_range (hlength ▸ hrow),
    List.getElem?_eq_getElem hrow, Option.map_some, Option.some.injEq] at hrow' ⊢
  rw [← hrow', Option.isNone_iff_eq_none]

/-- Pages hold no other values than these, whether they are checked or not. -/
theorem holds_of_decode {format : PageFormat} {raw : Bytes} {rows : ℕ} {verify : Bool}
    {cells : List Cell} (h : decode format raw rows verify = .ok cells) {v : Value}
    (hv : some v ∈ cells) : format.field.Holds format.encoding v := by
  obtain ⟨-, body, rest, -, hbody⟩ := of_decode_eq_ok h
  obtain ⟨flag, bitmap, values, hlayout⟩ := layout_of_decodeBody format.supported hbody
  obtain ⟨n, -, hread⟩ := consumes_decodeValues format.supported _ _ _ _ hlayout.values
  exact hread.storable.holds v (List.mem_filterMap.mpr ⟨_, hv, rfl⟩)

end Page

/-! ## Columns -/

/-- The decoder of the column compares values with the declared length, or need not. -/
def ColumnMeta.ChecksLength (m : ColumnMeta) : Prop :=
  m.encoding = .dictionary ∨ m.type.kind ≠ .bytes ∨ m.length = 0

theorem Field.Holds.check_eq_ok {m : ColumnMeta} {v : Value} (h : m.field.Holds m.encoding v)
    (hlength : m.ChecksLength) : m.check (some v) = .ok () := by
  refine Field.admits_iff.mpr ⟨h.kind_eq, fun bs hbs => ?_⟩
  subst hbs
  rcases hlength with hdict | hkind | hzero
  · exact h.fits hdict bs rfl
  · exact absurd h.kind_eq.symm hkind
  · simp [Field.fits, ColumnMeta.field, hzero]

namespace Column

theorem holds_of_readPage {options : ReadOptions} {entry : ColumnMeta} {numRows : ℕ} {file : File}
    {c : Column} (h : OpensFrom options entry numRows file c) {p : ℕ} {cells : List Cell}
    (hpage : c.readPage p = .ok cells) {v : Value} (hv : some v ∈ cells) :
    c.entry.field.Holds c.entry.encoding v := by
  have hformat : c.format.field = c.entry.field ∧ c.format.encoding = c.entry.encoding := by
    have hnew := h.format
    unfold PageFormat.new at hnew
    split at hnew
    next =>
      rw [← Except.ok.inj hnew, h.entry_eq]
      exact ⟨rfl, rfl⟩
    next => cases hnew
  unfold readPage at hpage
  split at hpage
  next =>
    obtain ⟨raw, -, hpage⟩ := of_bind_eq_ok hpage
    rw [← hformat.1, ← hformat.2]
    exact Page.holds_of_decode hpage hv
  next => cases hpage

end Column

theorem ColumnPlan.Heads.check_eq {plan : ColumnPlan} {cells : List Cell} {m : ColumnMeta}
    (h : plan.Heads cells m) (c : Cell) : m.check c = plan.entry.check c := by
  rw [h]
  cases c <;> rfl

/-- Pages that were written hold only cells that the column took. -/
theorem SegmentPlan.Lies.check_of_readPage [Lz4.Compressor] [Lz4.LawfulCompressor]
    {plan : SegmentPlan} {rows : List Row} {file body : Array UInt8} {footer : Footer}
    (h : plan.Lies rows body footer) (hfile : Segment.Sealed file body footer.encode)
    (hfit : plan.Fits rows) {i p : ℕ} {options : ReadOptions} {col : Column} {cells : List Cell}
    (hcol : (Segment.mk (.memory file) footer).column i options = .ok col)
    (hpage : col.readPage p = .ok cells) : ∀ c ∈ cells, col.entry.check c = .ok () := by
  obtain ⟨entry, hentry, hopens⟩ := Segment.opensFrom_of_column hcol
  obtain ⟨t, ht, hwritten⟩ := forall₂_getElem? h.columns hentry
  obtain ⟨col', hcol', hopened⟩ := h.column_eq_ok hfile options ht
  obtain rfl : col = col' := Except.ok.inj (hcol.symm.trans hcol')
  have hmem := List.mem_of_getElem? ht
  have haccepts := h.accepted t hmem
  -- A page that can be read is one of those that were written.
  have hsize : p < col.index.entries.size := by
    by_contra hp
    rw [Column.readPage, Array.getElem?_eq_none (Nat.le_of_not_lt hp)] at hpage
    cases hpage
  have hpages := hopened.index.length_eq
  rw [Page.length_numbered, Array.length_toList] at hpages
  have hrun := List.getElem?_eq_getElem (hpages ▸ hsize : p < (t.plan.runs t.cells).length)
  have hcells := hopened.readPage_eq_ok haccepts hrun fun hc =>
    hfit.column hmem hc _ (List.mem_of_getElem? hrun)
  obtain rfl := Except.ok.inj (hpage.symm.trans hcells)
  intro c hc
  rw [hopens.entry_eq, hwritten.entry.check_eq]
  exact haccepts c (ColumnPlan.mem_cells_of_mem_run (List.mem_of_getElem? hrun) hc)

/-- Whatever bytes open as a segment, a value that is read from a column has the type of the column,
and passes the check that the writer makes, unless it is one of the strings that are decoded without
a look at the declared length. That a column has no nulls which must have none is for the writer to
see to: from a segment that it finished, with a compressor that can be undone, all cells pass its
check. -/
theorem read_cells_conform {file : File} {s : Segment} {i p : ℕ} {options : ReadOptions}
    {col : Column} {cells : List Cell} (hopen : Segment.open file = .ok s)
    (hcol : s.column i options = .ok col) (hpage : col.readPage p = .ok cells) :
    (∀ v, some v ∈ cells → v.kind = col.entry.type.kind ∧
      (col.entry.ChecksLength → col.entry.check (some v) = .ok ())) ∧
    ∀ [Lz4.Compressor] [Lz4.LawfulCompressor] {id schema writing initial rows bytes},
      file = .memory bytes → bytes.size < 2 ^ 64 →
      SegmentWriter.Writes id schema writing initial rows bytes →
      (writing.compression = .lz4 → writing.BodiesFit schema rows) →
        ∀ c ∈ cells, col.entry.check c = .ok () := by
  constructor
  · intro v hv
    obtain ⟨entry, -, hopens⟩ := Segment.opensFrom_of_column hcol
    have hholds := Column.holds_of_readPage hopens hpage hv
    exact ⟨hholds.kind_eq, hholds.check_eq_ok⟩
  · rintro _ _ id schema writing initial rows bytes rfl hsize hwrites hfit
    obtain ⟨plan, body, footer, rfl, rfl, rfl, hsealed, hlies⟩ := hwrites.lies hsize
    obtain rfl := Except.ok.inj (hopen.symm.trans (hlies.open_eq_ok hsealed))
    exact hlies.check_of_readPage hsealed hfit hcol hpage

/-- The cells of a page of a column, if all is well on the way there. -/
def Segment.page? (file : File) (options : ReadOptions) (column page : ℕ) :
    Option (ColumnMeta × List Cell) := do
  let s ← (Segment.open file).toOption
  let col ← (s.column column options).toOption
  let cells ← (col.readPage page).toOption
  return (col.entry, cells)

theorem Segment.of_page?_eq_some {file : File} {options : ReadOptions} {column page : ℕ}
    {entry : ColumnMeta} {cells : List Cell}
    (h : Segment.page? file options column page = some (entry, cells)) :
    ∃ s col, Segment.open file = .ok s ∧ s.column column options = .ok col ∧
      col.readPage page = .ok cells ∧ col.entry = entry := by
  obtain ⟨s, hs, h⟩ := Option.bind_eq_some_iff.mp h
  obtain ⟨col, hcol, h⟩ := Option.bind_eq_some_iff.mp h
  obtain ⟨cells', hcells, h⟩ := Option.bind_eq_some_iff.mp h
  cases h
  exact ⟨s, col, eq_ok_of_toOption hs, eq_ok_of_toOption hcol, eq_ok_of_toOption hcells, rfl⟩

attribute [local instance] Lz4.matcher

/-- Strings of a declared length, of which none may be null. -/
theorem read_cells_conform_strings :
    let schema : Schema := {
      columns :=
        [{ uniqueId := 9, name := "tag", type := .varchar, length := 2, isNullable := false }]
      shortKeys := 0
      nonempty := by decide
      distinct := by decide
      keysFirst := by decide
      shortKeys_le := by decide }
    let options : SegmentOptions := { maxRowsPerPage := 1 }
    ∃ file s col, SegmentWriter.Writes 4 schema options #[] [[some (.bytes [97])]] file ∧
      file.size < 2 ^ 64 ∧ options.BodiesFit schema [[some (.bytes [97])]] ∧
      Segment.open (.memory file) = .ok s ∧ s.column 0 {} = .ok col ∧
      col.readPage 0 = .ok [some (.bytes [97])] ∧ col.entry.type.kind = .bytes ∧
      col.entry.check (some (.bytes [97])) = .ok () := by
  intro schema options
  have hrun : (SegmentWriter.written? 4 schema options #[] [[some (.bytes [97])]]).any fun file =>
      file.size < 2 ^ 64 ∧ (Segment.page? (.memory file) {} 0 0).map (·.2) =
        some [some (.bytes [97])] := by
    decide +kernel
  have hfit : options.BodiesFit schema [[some (.bytes [97])]] := by
    decide +kernel
  obtain ⟨file, hwrites, hsize, hpage⟩ := SegmentWriter.exists_writes hrun
  obtain ⟨⟨entry, cells⟩, hpage, rfl⟩ := Option.map_eq_some_iff.mp hpage
  obtain ⟨s, col, hopen, hcol, hread, -⟩ := Segment.of_page?_eq_some hpage
  obtain ⟨hvalues, hchecks⟩ := read_cells_conform hopen hcol hread
  have hkind := (hvalues (.bytes [97]) (List.mem_singleton.mpr rfl)).1
  have hcheck := hchecks rfl hsize hwrites (fun _ => hfit) _ (List.mem_singleton.mpr rfl)
  exact ⟨file, s, col, hwrites, hsize, hfit, hopen, hcol, hread, hkind.symm, hcheck⟩

/-- A page with a null in a column that must have none is read like any other. -/
theorem null_read_from_required_column :
    let page := Page.withChecksum [1, 1, 1]
    let column : ColumnMeta := {
      id := 0, uniqueId := 1, type := .int, length := 0, isNullable := false, encoding := .plain
      compression := .none, numRows := 1, pages := #[⟨0, 7⟩], ordinalIndex := some ⟨7, 24⟩ }
    let footer : Footer := { numRows := 1, columns := [column] }
    let index := OrdinalIndex.encode [⟨0, ⟨0, 7⟩⟩]
    let file := (page ++ index ++ footer.encode ++ Footer.trailer footer.encode).toArray
    ∃ s col, Segment.open (.memory file) = .ok s ∧ s.column 0 {} = .ok col ∧
      col.readPage 0 = .ok [none] ∧ col.entry.check none ≠ .ok () := by
  intro page column footer index file
  have hpage : Segment.page? (.memory file) {} 0 0 = some (column, [none]) := by
    decide +kernel
  obtain ⟨s, col, hopen, hcol, hread, hentry⟩ := Segment.of_page?_eq_some hpage
  refine ⟨s, col, hopen, hcol, hread, ?_⟩
  rw [hentry]
  nofun

end Columnar
