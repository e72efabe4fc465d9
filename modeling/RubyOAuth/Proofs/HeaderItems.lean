import RubyOAuth.Proofs.Escaping
import RubyOAuth.Proofs.HeaderRoundTrip
import RubyOAuth.Proofs.SplitFields

set_option autoImplicit false

/-! # Which headers are read

`parse_header` looks at the number of fields only, and takes quotes off after it has unescaped. So it
reads some texts that are no list of parameters, and of a list it may read a name or a value that has
a line in quotes otherwise than it was written. -/

namespace RubyOAuth

open Bytes

/-! ## Parameter lists -/

/-- Free of `,`, `=` and `&`. -/
def Unseparated (s : Bytes) : Prop := ∀ b ∈ s, isFieldSeparator b = false

/-- One item after the other: a name that is not blank, `=`, a value, and `,` or `&` between two items.
    Names and values are kept with the space around them. -/
inductive ItemText : Bytes → List (Bytes × Bytes) → Prop
  | last {n v : Bytes} (hn : Unseparated n) (hblank : strip n ≠ []) (hv : Unseparated v) :
      ItemText (n ++ equal :: v) [(n, v)]
  | cons {n v s : Bytes} {b : UInt8} {items : List (Bytes × Bytes)} (hn : Unseparated n)
      (hblank : strip n ≠ []) (hv : Unseparated v) (hb : b = comma ∨ b = ampersand)
      (hs : ItemText s items) : ItemText (n ++ equal :: (v ++ b :: s)) ((n, v) :: items)

/-- A list of any length, also an empty one. -/
def HeaderItems (s : Bytes) (items : List (Bytes × Bytes)) : Prop :=
  (s = [] ∧ items = []) ∨ ItemText s items

def decodedName (n : Bytes) : Bytes := unescape (strip n)

/-- Of a value in quotes, what is inside them. -/
def decodedValue (v : Bytes) : Bytes :=
  match unquoteLine (strip v) with
  | some inside => unescape inside
  | none => unescape (strip v)

/-- The hash of a list: the last item of a name decides. -/
def itemsHash (items : List (Bytes × Bytes)) : OrderedHash Bytes Bytes :=
  OrderedHash.ofList (items.map (fun e => (decodedName e.1, decodedValue e.2)))

/-- Only lists are read, each to its hash, and every other text is a problem. -/
def ReadsLists (scheme s : Bytes) : Prop :=
  (∀ hdr, parseHeader (scheme ++ s) = .ok hdr →
    ∃ items, HeaderItems s items ∧ ∀ k, hdr.lookup k = (itemsHash items).lookup k) ∧
  ((¬ ∃ items, HeaderItems s items) → ∃ m, parseHeader (scheme ++ s) = .error (.problem m))

/-! ## Taking quotes off -/

/-- Some line of the text is in quotes. -/
def QuotedLine (s : Bytes) : Prop := ∃ l ∈ s.splitOn newline, (unquoteLine l).isSome = true

theorem length_unquoteLine {l u : Bytes} (h : unquoteLine l = some u) : u.length + 2 = l.length := by
  unfold unquoteLine at h
  split at h
  · simp at h
  · next b rest =>
      split_ifs at h with hq
      have hne : rest ≠ [] := by
        rintro rfl
        simp at hq
      have hpos := List.length_pos_of_ne_nil hne
      rw [← Option.some.inj h, List.length_dropLast, List.length_cons]
      omega

/-- The first line in quotes loses them. -/
theorem unquoteLines_cases (ls : List Bytes) :
    ((∀ l ∈ ls, unquoteLine l = none) ∧ unquoteLines ls = ls) ∨
      (∃ l ∈ ls, (unquoteLine l).isSome = true) ∧ partsSize (unquoteLines ls) + 2 = partsSize ls := by
  induction ls with
  | nil => exact .inl ⟨by simp, rfl⟩
  | cons l rest ih =>
      rw [unquoteLines]
      cases hl : unquoteLine l with
      | some u =>
          have hlen := length_unquoteLine hl
          refine .inr ⟨⟨l, List.mem_cons_self, by rw [hl]; rfl⟩, ?_⟩
          simp only [partsSize_cons]
          omega
      | none =>
          rcases ih with ⟨hno, heq⟩ | ⟨⟨l', hl', hsome⟩, hsize⟩
          · exact .inl ⟨List.forall_mem_cons.2 ⟨hl, hno⟩, by rw [heq]⟩
          · refine .inr ⟨⟨l', List.mem_cons_of_mem l hl', hsome⟩, ?_⟩
            simp only [partsSize_cons]
            omega

/-- **A text is kept where no line of it is in quotes, and is shorter by two bytes where one is.** -/
theorem stripQuotes_cases (s : Bytes) :
    (¬ QuotedLine s ∧ stripQuotes s = s) ∨ (QuotedLine s ∧ (stripQuotes s).length + 2 = s.length) := by
  have hjoin : joinWith newline (s.splitOn newline) = s := List.intercalate_splitOn newline
  have hne : s.splitOn newline ≠ [] := List.splitOn_ne_nil newline s
  rcases unquoteLines_cases (s.splitOn newline) with ⟨hno, heq⟩ | ⟨hline, hsize⟩
  · refine .inl ⟨?_, by rw [stripQuotes, heq, hjoin]⟩
    rintro ⟨l, hl, hsome⟩
    simp [hno l hl] at hsome
  · have hlen := length_joinWith newline (unquoteLines_ne_nil hne)
    have hlen' := length_joinWith newline hne
    rw [hjoin] at hlen'
    refine .inr ⟨hline, ?_⟩
    rw [stripQuotes]
    omega

theorem stripQuotes_eq_iff (s : Bytes) : stripQuotes s = s ↔ ¬ QuotedLine s := by
  rcases stripQuotes_cases s with ⟨hno, heq⟩ | ⟨hline, hlen⟩
  · exact iff_of_true heq hno
  · refine iff_of_false (fun heq => ?_) (fun hno => hno hline)
    rw [heq] at hlen
    omega

/-- What the parser makes of a field. -/
def readField (v : Bytes) : Bytes := stripQuotes (unescape (strip v))

/-- A value that is read as it was written: inside its quotes it has no line end, and without quotes no
    line in quotes. -/
def ValueReads (v : Bytes) : Prop :=
  match unquoteLine (strip v) with
  | some inside => newline ∉ unescape inside
  | none => ¬ QuotedLine (unescape (strip v))

theorem quoted_of_unquoteLine {l u : Bytes} (h : unquoteLine l = some u) : l = quoted u := by
  unfold unquoteLine at h
  split at h
  · simp at h
  · next b rest =>
      split_ifs at h with hq
      rw [← Option.some.inj h, quoted, hq.1, List.dropLast_append_getLast? quote hq.2]

/-- Quotes are no part of an escape. -/
theorem unescape_quoted_text (s : Bytes) : unescape (quoted s) = quoted (unescape s) := by
  rw [unescape_eq_decode, unescape_eq_decode, quoted, PercentCode.decode_cons_of_ne (by decide),
    PercentCode.decode_append_cons (by decide) (by decide)]
  rfl

theorem readField_eq_iff (v : Bytes) : readField v = decodedValue v ↔ ValueReads v := by
  rw [readField, decodedValue, ValueReads]
  cases h : unquoteLine (strip v) with
  | some inside =>
      rw [quoted_of_unquoteLine h, unescape_quoted_text]
      exact stripQuotes_quoted_iff (unescape inside)
  | none => exact stripQuotes_eq_iff _

/-! ## The fields of a list -/

theorem ItemText.fields {s : Bytes} {items : List (Bytes × Bytes)} (h : ItemText s items) :
    s.splitOnP isFieldSeparator = items.flatMap (fun e => [e.1, e.2]) := by
  have hequal : isFieldSeparator equal = true := by decide
  induction h with
  | last hn _ hv =>
      rw [List.splitOnP_append_cons_of_forall_mem hn equal hequal, List.splitOnP_eq_singleton hv]
      rfl
  | @cons n v s b items hn _ hv hb _ ih =>
      have hsep : isFieldSeparator b = true := by
        rcases hb with rfl | rfl <;> decide
      rw [List.splitOnP_append_cons_of_forall_mem hn equal hequal,
        List.splitOnP_append_cons_of_forall_mem hv b hsep, ih, List.flatMap_cons]
      rfl

/-- The last item has a name that is not blank. -/
theorem ItemText.exists_last {s : Bytes} {items : List (Bytes × Bytes)} (h : ItemText s items) :
    ∃ init n v, items = init ++ [(n, v)] ∧ n ≠ [] := by
  have hne : ∀ {n : Bytes}, strip n ≠ [] → n ≠ [] := by
    rintro n hn rfl
    exact hn rfl
  induction h with
  | @last n v _ hblank _ => exact ⟨[], n, v, rfl, hne hblank⟩
  | @cons n v s b items _ _ _ _ _ ih =>
      obtain ⟨init, n', v', rfl, hn'⟩ := ih
      exact ⟨(n, v) :: init, n', v', rfl, hn'⟩

/-- If the number of fields is even, none is dropped: the last name would be the first to be. -/
theorem splitFields_of_items {s : Bytes} {items : List (Bytes × Bytes)} (h : HeaderItems s items)
    (heven : (splitFields isFieldSeparator s).length % 2 = 0) :
    splitFields isFieldSeparator s = items.flatMap (fun e => [e.1, e.2]) := by
  rcases h with ⟨rfl, rfl⟩ | h
  · rfl
  · obtain ⟨k, hk⟩ := splitOnP_eq_splitFields isFieldSeparator s
    rw [h.fields] at hk
    have hlen := congrArg List.length hk
    rw [length_flatMap_pair, List.length_append, List.length_replicate] at hlen
    by_cases hzero : k = 0
    · rw [hk, hzero, List.replicate_zero, List.append_nil]
    · obtain ⟨init, n, v, rfl, hn⟩ := h.exists_last
      rw [List.length_append, List.length_singleton] at hlen
      have hat := congrArg (fun l => l[2 * init.length]?) hk
      have hinit : (init.flatMap (fun e => [e.1, e.2])).length = 2 * init.length :=
        length_flatMap_pair Prod.fst Prod.snd init
      simp only [List.flatMap_append, List.flatMap_singleton] at hat
      rw [List.getElem?_append_right (Nat.le_of_eq hinit), hinit, Nat.sub_self,
        List.getElem?_append_right (by omega), List.getElem?_replicate, if_pos (by omega)] at hat
      exact absurd (Option.some.inj hat) hn

theorem readFields_of_items {s : Bytes} {items : List (Bytes × Bytes)} (h : HeaderItems s items)
    (heven : (splitFields isFieldSeparator s).length % 2 = 0) :
    pairUp (readFields s) = items.map (fun e => (readField e.1, readField e.2)) := by
  have hread : readFields s = (splitFields isFieldSeparator s).map readField := rfl
  rw [hread, splitFields_of_items h heven, List.map_flatMap]
  exact pairUp_flatMap (fun e : Bytes × Bytes => readField e.1) (fun e => readField e.2) items

/-! ## The hash of a list -/

/-- A map that shortens whatever it changes, and keeps a finite set, changes nothing in it. -/
theorem eq_of_mem_map_iff {f : Bytes → Bytes} (hf : ∀ x, f x ≠ x → (f x).length < x.length)
    {xs : List Bytes} (h : ∀ k, k ∈ xs.map f ↔ k ∈ xs) : ∀ x ∈ xs, f x = x := by
  intro x hx
  by_contra hne
  -- every changed element is what a longer one becomes
  have hlong : ∀ n, ∃ y ∈ xs, f y ≠ y ∧ n ≤ y.length := by
    intro n
    induction n with
    | zero => exact ⟨x, hx, hne, Nat.zero_le _⟩
    | succ n ih =>
        obtain ⟨y, hy, hney, hn⟩ := ih
        obtain ⟨z, hz, rfl⟩ := List.mem_map.1 ((h y).2 hy)
        have hnez : f z ≠ z := fun hfz => hney (by rw [hfz, hfz])
        have hlt := hf z hnez
        exact ⟨z, hz, hnez, by omega⟩
  obtain ⟨y, hy, -, hlen⟩ := hlong (xs.toFinset.sup List.length + 1)
  have hle : y.length ≤ xs.toFinset.sup List.length :=
    Finset.le_sup (f := List.length) (List.mem_toFinset.2 hy)
  omega

/-- Each value is read by itself. -/
theorem lookup_ofList_map (f : Bytes → Bytes) (es : List (Bytes × Bytes)) (k : Bytes) :
    (OrderedHash.ofList (es.map (fun e => (e.1, f e.2)))).lookup k
      = ((OrderedHash.ofList es).lookup k).map f := by
  rw [OrderedHash.lookup_ofList, OrderedHash.lookup_ofList, ← List.map_reverse,
    OrderedHash.findEntry_map]

/-- The values as they stand, each name decoded; the last one of a name decides. -/
def rawHash (items : List (Bytes × Bytes)) : OrderedHash Bytes Bytes :=
  OrderedHash.ofList (items.map (fun e => (decodedName e.1, e.2)))

/-- **A list is read to its hash exactly where no name has a line in quotes, and the last value of each
    name is read as it was written.** -/
theorem lookup_itemsHash_iff (items : List (Bytes × Bytes)) :
    (∀ k, (OrderedHash.ofList (items.map (fun e => (readField e.1, readField e.2)))).lookup k
        = (itemsHash items).lookup k) ↔
      (∀ e ∈ items, ¬ QuotedLine (decodedName e.1)) ∧
        ∀ k v, (rawHash items).lookup k = some v → ValueReads v := by
  have hname : ∀ n, readField n = stripQuotes (decodedName n) := fun _ => rfl
  have hsame : (∀ e ∈ items, ¬ QuotedLine (decodedName e.1)) →
      ∀ k, (OrderedHash.ofList (items.map (fun e => (readField e.1, readField e.2)))).lookup k
        = ((rawHash items).lookup k).map readField := by
    intro hnames k
    rw [rawHash, ← lookup_ofList_map, List.map_map]
    congr 2
    refine List.map_congr_left fun e he => ?_
    rw [hname, (stripQuotes_eq_iff _).2 (hnames e he)]
    rfl
  have hspec : ∀ k, (itemsHash items).lookup k = ((rawHash items).lookup k).map decodedValue := by
    intro k
    rw [itemsHash, rawHash, ← lookup_ofList_map, List.map_map]
    rfl
  constructor
  · intro h
    have hnames : ∀ e ∈ items, ¬ QuotedLine (decodedName e.1) := by
      have hkeys : ∀ k, k ∈ (items.map (fun e => decodedName e.1)).map stripQuotes ↔
          k ∈ items.map (fun e => decodedName e.1) := by
        intro k
        have hk := congrArg (fun o => Option.isSome o = true) (h k)
        simp only [eq_iff_iff] at hk
        rw [OrderedHash.lookup_ofList_isSome, itemsHash, OrderedHash.lookup_ofList_isSome,
          List.map_map, List.map_map] at hk
        rw [List.map_map]
        exact hk
      have hshort : ∀ x, stripQuotes x ≠ x → (stripQuotes x).length < x.length := by
        intro x hx
        rcases stripQuotes_cases x with ⟨-, heq⟩ | ⟨-, hlen⟩
        · exact absurd heq hx
        · omega
      intro e he
      exact (stripQuotes_eq_iff _).1 (eq_of_mem_map_iff hshort hkeys _ (List.mem_map_of_mem he))
    refine ⟨hnames, fun k v hv => ?_⟩
    have hk := h k
    rw [hsame hnames, hspec, hv, Option.map_some, Option.map_some, Option.some.injEq,
      readField_eq_iff] at hk
    exact hk
  · rintro ⟨hnames, hvalues⟩ k
    rw [hsame hnames, hspec]
    cases hv : (rawHash items).lookup k with
    | none => rfl
    | some v => rw [Option.map_some, Option.map_some, (readField_eq_iff v).2 (hvalues k v hv)]

/-! ## What is read -/

/-- **Only lists are read, and to their hashes, exactly where the number of fields is odd, or the text is
    a list whose names and last values are read as they were written.** -/
theorem readsLists_iff (scheme s : Bytes) (hscheme : scheme.length = 6) :
    ReadsLists scheme s ↔
      (splitFields isFieldSeparator s).length % 2 = 1 ∨
        ∃ items, HeaderItems s items ∧ (∀ e ∈ items, ¬ QuotedLine (decodedName e.1)) ∧
          ∀ k v, (rawHash items).lookup k = some v → ValueReads v := by
  have hparse := parseHeader_append hscheme s
  rw [readFields, List.length_map, ← readFields] at hparse
  by_cases hodd : (splitFields isFieldSeparator s).length % 2 = 1
  · rw [if_pos hodd] at hparse
    refine iff_of_true ⟨fun hdr hhdr => ?_, fun _ => ⟨_, hparse⟩⟩ (.inl hodd)
    rw [hparse] at hhdr
    simp at hhdr
  · rw [if_neg hodd] at hparse
    have heven : (splitFields isFieldSeparator s).length % 2 = 0 := by omega
    have hreads : ∀ items, HeaderItems s items →
        ((∀ k, (OrderedHash.ofList (pairUp (readFields s))).lookup k = (itemsHash items).lookup k) ↔
          (∀ e ∈ items, ¬ QuotedLine (decodedName e.1)) ∧
            ∀ k v, (rawHash items).lookup k = some v → ValueReads v) := by
      intro items hitems
      rw [readFields_of_items hitems heven]
      exact lookup_itemsHash_iff items
    constructor
    · rintro ⟨hok, -⟩
      obtain ⟨items, hitems, hlook⟩ := hok _ hparse
      exact .inr ⟨items, hitems, (hreads items hitems).1 hlook⟩
    · rintro (h | ⟨items, hitems, h⟩)
      · exact absurd h hodd
      · refine ⟨fun hdr hhdr => ⟨items, hitems, ?_⟩, fun hno => absurd ⟨items, hitems⟩ hno⟩
        rw [hparse, Except.ok.injEq] at hhdr
        rw [← hhdr]
        exact (hreads items hitems).2 h

theorem readsLists_two_items :
    ReadsLists (ascii "OAuth ") (ascii "a=b, c=\"d\"") ↔
      (splitFields isFieldSeparator (ascii "a=b, c=\"d\"")).length % 2 = 1 ∨
        ∃ items, HeaderItems (ascii "a=b, c=\"d\"") items ∧
          (∀ e ∈ items, ¬ QuotedLine (decodedName e.1)) ∧
          ∀ k v, (rawHash items).lookup k = some v → ValueReads v :=
  readsLists_iff (ascii "OAuth ") (ascii "a=b, c=\"d\"") rfl

/-- Every item has its `=`. -/
theorem HeaderItems.equal_mem {s : Bytes} {items : List (Bytes × Bytes)} (h : HeaderItems s items)
    (hne : s ≠ []) : equal ∈ s := by
  rcases h with ⟨rfl, -⟩ | h
  · exact absurd rfl hne
  · cases h <;> simp

/-- Two fields without an `=`. -/
theorem readsLists_comma :
    (parseHeader (ascii "OAuth a,b")).map (fun hdr => hdr.lookup (ascii "a")) = .ok (some (ascii "b")) ∧
      ¬ (∃ items, HeaderItems (ascii "a,b") items) ∧
      ¬ ReadsLists (ascii "OAuth ") (ascii "a,b") := by
  have hno : ¬ ∃ items, HeaderItems (ascii "a,b") items := by
    rintro ⟨items, h⟩
    exact absurd (h.equal_mem (by decide)) (by decide)
  refine ⟨by decide +kernel, hno, ?_⟩
  rintro ⟨-, hproblem⟩
  obtain ⟨m, hm⟩ := hproblem hno
  have hok : (parseHeader (ascii "OAuth " ++ ascii "a,b")).isOk = true := by decide +kernel
  rw [hm] at hok
  exact absurd hok Bool.false_ne_true

end RubyOAuth
