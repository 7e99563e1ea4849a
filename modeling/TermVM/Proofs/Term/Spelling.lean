/-
  TermVM.Proofs.Term.Spelling

  Terms whose names are byte strings.

  A writer takes a name as it stands and a reader takes well-formed text only,
  so the bytes of a term are read back when all its names are text and the term
  of these texts keeps to the bounds of the reader.  A term with text for names
  has the bytes of its spelled-out form, `Term.encode?_bytes`, and a term with
  any other name is refused; this reduces byte strings to text.
-/
import TermVM.Proofs.Term.Wire

namespace TermVM

open Cbor Result

/-- Whether a byte string is well-formed text. -/
def IsUtf8 (bs : Bytes) : Prop :=
  (ofUtf8? bs).isSome = true

instance (bs : Bytes) : Decidable (IsUtf8 bs) :=
  inferInstanceAs (Decidable (_ = true))

theorem isUtf8_iff {bs : Bytes} : IsUtf8 bs ↔ ∃ s, utf8 s = bs := by
  constructor
  · intro h
    obtain ⟨s, hs⟩ := Option.isSome_iff_exists.mp h
    exact ⟨s, utf8_of_ofUtf8? hs⟩
  · rintro ⟨s, rfl⟩
    rw [IsUtf8, ofUtf8?_utf8]
    rfl

theorem utf8_injective : Function.Injective utf8 := fun s s' h =>
  Option.some.inj ((ofUtf8?_utf8 s).symm.trans (h ▸ ofUtf8?_utf8 s'))

namespace Spelling

@[simp] theorem blank_bytes : (blank : Bytes) = [] := rfl

@[simp] theorem item_utf8 (s : String) : item (utf8 s) = .text s :=
  Item.ofChunk_of_some (ofUtf8?_utf8 s)

@[simp] theorem item_nil : item ([] : Bytes) = .text "" :=
  item_utf8 ""

@[simp] theorem utf8_bne_nil (s : String) :
    @bne Bytes instBEqOfDecidableEq (utf8 s) [] = (s != "") := by
  have hempty : utf8 s = [] ↔ s = "" := utf8_injective.eq_iff (a := s) (b := "")
  show (!decide (utf8 s = [])) = !decide (s = "")
  rw [decide_eq_decide.mpr hempty]

theorem isUtf8_of_text? {bs : Bytes} {s : String} (h : text? bs = some s) : IsUtf8 bs := by
  cases hbs : ofUtf8? bs with
  | some s' =>
    rw [IsUtf8, hbs]
    rfl
  | none =>
    have hrefused : text? bs = (Item.badText bs hbs).toText? :=
      congrArg Item.toText? (Item.ofChunk_of_none hbs)
    cases hrefused.symm.trans h

end Spelling

/-! ## Renaming -/

namespace Term

section

variable {ν μ : Type} (f : ν → μ)

mutual

/-- A term with every name replaced. -/
def map : Term ν → Term μ
  | absent => absent
  | var index => var index
  | sort level => sort (f level)
  | mvar name => mvar (f name)
  | const name marker => const (f name) marker
  | fvar id name => fvar id (f name)
  | app fn args => app fn.map (mapArgs args)
  | lam binder body => lam (f binder) body.map
  | pi binder domain body => pi (f binder) domain.map body.map
  | letIn bindings body => letIn (mapBindings bindings) body.map
  | nat value => nat value
  | quote body => quote body.map
  | ann name body => ann (f name) body.map
  | foreign name args => foreign (f name) (mapArgs args)

/-- The terms of a list with every name replaced. -/
def mapArgs : List (Term ν) → List (Term μ)
  | [] => []
  | a :: as => a.map :: mapArgs as

/-- Bindings with every name replaced. -/
def mapBindings : List (ν × Term ν) → List (μ × Term μ)
  | [] => []
  | (x, v) :: bs => (f x, v.map) :: mapBindings bs

end

variable {f}

@[simp] theorem mapArgs_eq_map (as : List (Term ν)) : mapArgs f as = as.map (map f) := by
  induction as with
  | nil => rfl
  | cons a as ih => exact congrArg (map f a :: ·) ih

@[simp] theorem mapBindings_eq_map (bs : List (ν × Term ν)) :
    mapBindings f bs = bs.map fun b => (f b.1, map f b.2) := by
  induction bs with
  | nil => rfl
  | cons b bs ih => exact congrArg ((f b.1, map f b.2) :: ·) ih

@[simp] theorem map_eq_absent {t : Term ν} : map f t = absent ↔ t = absent := by
  cases t with
  | absent => exact iff_of_true rfl rfl
  | _ => exact iff_of_false (by rintro ⟨⟩) (by rintro ⟨⟩)

theorem children_map (t : Term ν) : (map f t).children = t.children.map (map f) := by
  cases t with
  | app fn args => exact congrArg (map f fn :: ·) (mapArgs_eq_map args)
  | foreign name args => exact mapArgs_eq_map args
  | letIn bindings body =>
    show (mapBindings f bindings).map (·.2) ++ [map f body] = _
    rw [mapBindings_eq_map, children, List.map_append, List.map_map, List.map_map]
    rfl
  | _ => rfl

theorem isRegular_map (t : Term ν) : (map f t).isRegular = t.isRegular := by
  cases t with
  | app fn args =>
    show (!(mapArgs f args).isEmpty) = !args.isEmpty
    rw [mapArgs_eq_map, List.isEmpty_map]
  | _ => rfl

theorem parts_map (t : Term ν) : (map f t).parts = t.parts.map (map f) := by
  induction t using childInd with
  | step t ih =>
    rw [parts_eq, parts_eq t, children_map, List.map_cons, List.flatMap_map, List.map_flatMap]
    exact congrArg _ (List.flatMap_congr fun c hc => ih c hc)

theorem height_map_le_iff {t : Term ν} {n : Nat} : (map f t).height ≤ n ↔ t.height ≤ n := by
  induction t using childInd generalizing n with
  | step t ih =>
    cases n with
    | zero =>
      have hpos := t.height_pos
      have hpos' := (map f t).height_pos
      omega
    | succ n =>
      rw [height_le_succ_iff, height_le_succ_iff, children_map, List.forall_mem_map]
      exact forall₂_congr fun c hc => ih c hc

end

/-- A term with its names spelled out. -/
def bytes (t : Term) : Term Bytes :=
  map utf8 t

end Term

/-! ## Nodes -/

namespace Node

/-- The strings that a node holds itself. -/
def strings (n : Node Bytes) : List Bytes :=
  n.name :: utf8 n.num :: n.names

end Node

namespace Term

theorem strings_shell_bytes (t : Term) : t.bytes.shell.strings = t.shell.texts.map utf8 := by
  have hblank : ([] : Bytes) = utf8 "" := rfl
  cases t with
  | letIn bindings body =>
    show ([] : Bytes) :: utf8 "" :: (mapBindings utf8 bindings).map (·.1) = _
    rw [mapBindings_eq_map, List.map_map]
    simp [shell, Node.texts, hblank, Function.comp_def]
  | _ => rfl

theorem forall_parts_bytes {P : Term Bytes → Prop} {t : Term} :
    (∀ u ∈ t.bytes.parts, P u) ↔ ∀ u ∈ t.parts, P u.bytes := by
  rw [bytes, parts_map, List.forall_mem_map]
  rfl

theorem forall_strings_bytes {P : Bytes → Prop} {t : Term} :
    (∀ s ∈ t.bytes.shell.strings, P s) ↔ ∀ s ∈ t.shell.texts, P (utf8 s) := by
  rw [strings_shell_bytes, List.forall_mem_map]

theorem length_children_bytes (t : Term) : t.bytes.children.length = t.children.length := by
  rw [bytes, children_map, List.length_map]

/-- A node of a spelled-out term is written as the node of the term, if their children are. -/
theorem toItem_shell_bytes (t : Term) {ks : List Node} {ks' : List (Node Bytes)}
    (h : Node.toItems ks' = Node.toItems ks) :
    Node.toItem { t.bytes.shell with kids := ks' } = Node.toItem { t.shell with kids := ks } := by
  have hempty : ks'.isEmpty = ks.isEmpty := by
    have hlength := congrArg List.length h
    rw [Node.toItems_eq_map, Node.toItems_eq_map, List.length_map, List.length_map] at hlength
    rw [Bool.eq_iff_iff, List.isEmpty_iff, List.isEmpty_iff, ← List.length_eq_zero_iff, hlength,
      List.length_eq_zero_iff]
  rw [Node.toItem_eq, Node.toItem_eq]
  cases t <;> simp [bytes, map, shell, Node.fields, h, hempty, Function.comp_def]

end Term

namespace Node

theorem toItems_ofTerms?_cons {ν : Type} [DecidableEq ν] [Spelling ν] (t : Term ν)
    (ts : List (Term ν)) :
    (ofTerms? (t :: ts)).map toItems
      = ((ofTerm? t).map toItem).bind fun x => ((ofTerms? ts).map toItems).map (x :: ·) := by
  rw [ofTerms?]
  cases ofTerm? t with
  | none => rfl
  | some n => cases ofTerms? ts <;> rfl

theorem toItems_ofTerms?_bytes {ts : List Term}
    (h : ∀ t ∈ ts, (ofTerm? t.bytes).map toItem = (ofTerm? t).map toItem) :
    (ofTerms? (ts.map Term.bytes)).map toItems = (ofTerms? ts).map toItems := by
  induction ts with
  | nil => rfl
  | cons t ts ih =>
    obtain ⟨ht, hts⟩ := List.forall_mem_cons.mp h
    rw [List.map_cons, toItems_ofTerms?_cons, toItems_ofTerms?_cons, ht, ih hts]

/-- A term is written with the names that its spelled-out form is written with. -/
theorem toItem_ofTerm?_bytes (t : Term) :
    (ofTerm? t.bytes).map toItem = (ofTerm? t).map toItem := by
  induction t using Term.childInd with
  | step t ih =>
    by_cases habsent : t = .absent
    · subst habsent
      rfl
    have hbytes : t.bytes ≠ .absent := fun h => habsent (Term.map_eq_absent.mp h)
    have hkids := toItems_ofTerms?_bytes ih
    have hchildren : t.bytes.children = t.children.map Term.bytes := Term.children_map t
    rw [ofTerm?_eq hbytes, ofTerm?_eq habsent, hchildren]
    cases hks : ofTerms? t.children with
    | none =>
      rw [hks] at hkids
      rw [Option.map_eq_none_iff.mp hkids]
      rfl
    | some ks =>
      rw [hks] at hkids
      obtain ⟨ks', hks', hitems⟩ := Option.map_eq_some_iff.mp hkids
      rw [hks']
      exact congrArg some (Term.toItem_shell_bytes t hitems)

/-- A node is read back as text only if it holds nothing else. -/
theorem isUtf8_of_text? {n : Node Bytes} {m : Node} (h : n.text? = some m) :
    (∀ s ∈ n.strings, IsUtf8 s) ∧ ∃ ms, texts? n.kids = some ms := by
  obtain ⟨kind, name, index, marker, kids, names, extension, num, id⟩ := n
  obtain ⟨name', hname, h⟩ := Option.bind_eq_some_iff.mp h
  obtain ⟨kids', hkids, h⟩ := Option.bind_eq_some_iff.mp h
  obtain ⟨names', hnames, -⟩ := Option.bind_eq_some_iff.mp h
  refine ⟨?_, kids', hkids⟩
  simp only [strings, List.forall_mem_cons]
  refine ⟨Spelling.isUtf8_of_text? hname, isUtf8_iff.mpr ⟨num, rfl⟩, fun s hs => ?_⟩
  obtain ⟨s', -, hs'⟩ := exists_of_mem_right (mapM_eq_some.mp hnames).flip hs
  exact Spelling.isUtf8_of_text? hs'

theorem exists_text?_of_texts? {ns : List (Node Bytes)} {ms : List Node} (h : texts? ns = some ms)
    {n : Node Bytes} (hn : n ∈ ns) : ∃ m, n.text? = some m := by
  induction ns generalizing ms with
  | nil => exact absurd hn List.not_mem_nil
  | cons n' ns ih =>
    obtain ⟨m, hm, h⟩ := Option.bind_eq_some_iff.mp h
    obtain ⟨ms', hms, -⟩ := Option.bind_eq_some_iff.mp h
    rcases List.mem_cons.mp hn with rfl | hn
    · exact ⟨m, hm⟩
    · exact ih hms hn

end Node

namespace Term

/-- Whether every name of a term is text. -/
def IsText (t : Term Bytes) : Prop :=
  ∀ u ∈ t.parts, ∀ s ∈ u.shell.strings, IsUtf8 s

theorem isText_iff {t : Term Bytes} :
    t.IsText ↔ (∀ s ∈ t.shell.strings, IsUtf8 s) ∧ ∀ c ∈ t.children, c.IsText :=
  forall_parts

theorem isText_bytes (t : Term) : t.bytes.IsText :=
  forall_parts_bytes.mpr fun _ _ => forall_strings_bytes.mpr fun s _ => isUtf8_iff.mpr ⟨s, rfl⟩

/-- What is read back is text throughout. -/
theorem isText_of_text? {t : Term Bytes} {n : Node Bytes} (hn : Node.ofTerm? t = some n) {m : Node}
    (hm : n.text? = some m) : t.IsText := by
  induction t using childInd generalizing n m with
  | step t ih =>
    obtain ⟨-, ks, hks, rfl⟩ := Node.ofTerm?_eq_some hn
    obtain ⟨hstrings, ms, hms⟩ := Node.isUtf8_of_text? hm
    refine isText_iff.mpr ⟨hstrings, fun c hc => ?_⟩
    obtain ⟨k, hk, hkc⟩ := Node.exists_mem_of_ofTerms? hks hc
    obtain ⟨m', hm'⟩ := Node.exists_text?_of_texts? hms hk
    exact ih c hc hkc hm'

/-- A term with its names read as text; what is not text is left out. -/
def text (t : Term Bytes) : Term :=
  map (fun bs => (ofUtf8? bs).getD "") t

theorem utf8_getD_ofUtf8? {bs : Bytes} (h : IsUtf8 bs) : utf8 ((ofUtf8? bs).getD "") = bs := by
  obtain ⟨s, rfl⟩ := isUtf8_iff.mp h
  rw [ofUtf8?_utf8]
  rfl

theorem bytes_textArgs {args : List (Term Bytes)} (h : ∀ a ∈ args, a.text.bytes = a) :
    mapArgs utf8 (mapArgs (fun bs => (ofUtf8? bs).getD "") args) = args := by
  rw [mapArgs_eq_map, mapArgs_eq_map, List.map_map]
  exact (List.map_congr_left h).trans args.map_id

theorem bytes_textBindings {bindings : List (Bytes × Term Bytes)}
    (hnames : ∀ b ∈ bindings, IsUtf8 b.1) (h : ∀ b ∈ bindings, b.2.text.bytes = b.2) :
    mapBindings utf8 (mapBindings (fun bs => (ofUtf8? bs).getD "") bindings) = bindings := by
  rw [mapBindings_eq_map, mapBindings_eq_map, List.map_map]
  have hself : ∀ b ∈ bindings, (utf8 ((ofUtf8? b.1).getD ""), b.2.text.bytes) = b :=
    fun b hb => Prod.ext (utf8_getD_ofUtf8? (hnames b hb)) (h b hb)
  exact (List.map_congr_left hself).trans bindings.map_id

/-- A term all of whose names are text is the term of these texts, spelled out. -/
theorem bytes_text {t : Term Bytes} (h : t.IsText) : t.text.bytes = t := by
  induction t using Term.ind with
  | app fn args ihfn ihargs =>
    obtain ⟨hfn, hargs⟩ := List.forall_mem_cons.mp (isText_iff.mp h).2
    show app fn.text.bytes (mapArgs utf8 (mapArgs _ args)) = _
    rw [ihfn hfn, bytes_textArgs fun a ha => ihargs a ha (hargs a ha)]
  | foreign name args ihargs =>
    obtain ⟨hstrings, hargs⟩ := isText_iff.mp h
    show foreign _ (mapArgs utf8 (mapArgs _ args)) = _
    rw [utf8_getD_ofUtf8? (hstrings name List.mem_cons_self),
      bytes_textArgs fun a ha => ihargs a ha (hargs a ha)]
  | letIn bindings body ihbindings ihbody =>
    obtain ⟨hstrings, hchildren⟩ := isText_iff.mp h
    obtain ⟨hbindings, hbody⟩ := List.forall_mem_append.mp hchildren
    -- behind the name and the numeral, which a let does not use, its node has the bound names
    have hname (b : Bytes × Term Bytes) (hb : b ∈ bindings) : IsUtf8 b.1 :=
      hstrings b.1 (List.mem_cons_of_mem _ (List.mem_cons_of_mem _ (List.mem_map_of_mem hb)))
    show letIn (mapBindings utf8 (mapBindings _ bindings)) body.text.bytes = _
    rw [ihbody (hbody body (List.mem_singleton_self body)), bytes_textBindings hname fun b hb =>
      ihbindings b hb (hbindings b.2 (List.mem_map_of_mem hb))]
  | _ =>
    obtain ⟨hstrings, hchildren⟩ := isText_iff.mp h
    simp_all [children, shell, Node.strings, text, bytes, map, utf8_getD_ofUtf8?]

/-! ## Bytes -/

theorem encode?_eq_map {ν : Type} [DecidableEq ν] [Spelling ν] (t : Term ν) :
    t.encode? = ((Node.ofTerm? t).map Node.toItem).map Item.encode := by
  rw [encode?]
  cases Node.ofTerm? t <;> rfl

/-- A term is written with the bytes of its spelled-out form. -/
theorem encode?_bytes (t : Term) : t.bytes.encode? = t.encode? := by
  rw [encode?_eq_map, encode?_eq_map, Node.toItem_ofTerm?_bytes]

/-- Only a term all of whose names are text is read from what it is written as. -/
theorem isText_of_decode {t : Term Bytes} {bytes : Bytes} (h : t.encode? = some bytes) {t' : Term}
    (hread : decode bytes = .ok t') : t.IsText := by
  obtain ⟨n, hn, hbytes⟩ := Option.bind_eq_some_iff.mp h
  obtain rfl := Option.some.inj hbytes
  obtain ⟨m, hm, -⟩ := bind_eq_ok.mp hread
  rw [show Cbor.decode? n.toItem.encode = _ from decodeWithin_encode .standard n.toItem] at hm
  split at hm
  next =>
    rw [Option.bind_some, Node.ofItem?_toItem] at hm
    cases htext : n.text? with
    | some m => exact isText_of_text? hn htext
    | none =>
      rw [htext] at hm
      cases hm
  next => cases hm

/-- The bytes of a term are read as the term or not at all.  They are read when the term has at most
    sixteen nodes on a way down, every part of it is of a shape that nodes stand for, none has more
    children than a list may have elements, and every string is well-formed text whose length takes
    no more than 64 bits. -/
theorem decode_eq_self_iff {t : Term Bytes} (hcomplete : t.isComplete = true) :
    ∃ bytes, t.encode? = some bytes ∧ (∀ t', decode bytes = .ok t' → t'.bytes = t) ∧
      ((∃ t', decode bytes = .ok t' ∧ t'.bytes = t) ↔
        t.height ≤ 16 ∧ ∀ u ∈ t.parts, u.isRegular = true ∧ u.children.length ≤ 131072 ∧
          ∀ s ∈ u.shell.strings, IsUtf8 s ∧ s.length < UInt64.size) := by
  obtain ⟨n, hn⟩ := Node.exists_ofTerm? hcomplete
  have hbytes : t.encode? = some n.toItem.encode := by
    rw [encode?, hn]
    rfl
  refine ⟨n.toItem.encode, hbytes, ?_⟩
  by_cases htext : t.IsText
  · -- the term of the texts has the same bytes
    obtain ⟨t₀, rfl⟩ : ∃ t₀ : Term, t₀.bytes = t := ⟨_, bytes_text htext⟩
    have hread {t' : Term} := @decode_encode? t₀ _ ((encode?_bytes t₀).symm.trans hbytes) t'
    have hutf8 (s : String) : IsUtf8 (utf8 s) := isUtf8_iff.mpr ⟨s, rfl⟩
    have hheight : t₀.bytes.height ≤ 16 ↔ t₀.height ≤ 16 := height_map_le_iff
    have hregular (u : Term) : u.bytes.isRegular = u.isRegular := isRegular_map u
    simp only [hread, hheight, forall_parts_bytes, forall_strings_bytes, hregular,
      length_children_bytes, hutf8, true_and]
    refine ⟨fun t' h => h.2 ▸ rfl, ?_, fun h => ⟨t₀, ⟨h, rfl⟩, rfl⟩⟩
    rintro ⟨t', h, -⟩
    exact h.1
  · have hrefused (t' : Term) : decode n.toItem.encode ≠ .ok t' :=
      fun h => htext (isText_of_decode hbytes h)
    refine ⟨fun t' h => absurd h (hrefused t'), iff_of_false ?_ ?_⟩
    · rintro ⟨t', h, -⟩
      exact hrefused t' h
    · rintro ⟨-, hparts⟩
      exact htext fun u hu s hs => ((hparts u hu).2.2 s hs).1

/-- A term of height `n + 4`. -/
def nestedLams (n : Nat) : Term :=
  lams (List.replicate n "x")
    (.letIn [("y", .nat 3)] (.app (.const "nat.succ" ⟨.cnstr, 1⟩) [.quote (.var 0)]))

theorem nestedLams_round_trip :
    (nestedLams 12).bytes.isComplete = true ∧
    (∃ bytes t, (nestedLams 12).bytes.encode? = some bytes ∧ decode bytes = .ok t ∧
      t.bytes = (nestedLams 12).bytes) ∧
    ∃ bytes, (nestedLams 13).bytes.encode? = some bytes ∧ ∀ t, decode bytes ≠ .ok t := by
  refine ⟨by decide, ?_, ?_⟩
  · obtain ⟨bytes, hbytes, -, hread⟩ :=
      decode_eq_self_iff (show (nestedLams 12).bytes.isComplete = true by decide)
    obtain ⟨t, ht, hsame⟩ := hread.mpr (by decide +kernel)
    exact ⟨bytes, t, hbytes, ht, hsame⟩
  · obtain ⟨bytes, hbytes, hsame, hread⟩ :=
      decode_eq_self_iff (show (nestedLams 13).bytes.isComplete = true by decide)
    refine ⟨bytes, hbytes, fun t ht => ?_⟩
    exact absurd (hread.mp ⟨t, ht, hsame t ht⟩).1 (by decide)

/-- A constant whose name is a byte that no text has. -/
def loneByte : Term Bytes :=
  .const [0xff] ⟨.plain, 0⟩

/-- Such a term is of a shape that nodes stand for, and low; it is written, and what was written is
    refused. -/
theorem decode_loneByte :
    loneByte.isComplete = true ∧ loneByte.height ≤ 16 ∧
    (∀ u ∈ loneByte.parts, u.isRegular = true ∧ u.children.length ≤ 131072) ∧
    loneByte.encode? = some [0xa2, 0x01, 0x03, 0x02, 0x61, 0xff] ∧
    decode [0xa2, 0x01, 0x03, 0x02, 0x61, 0xff] = .error .refused := by
  refine ⟨by decide, by decide, by decide, ?_, ?_⟩
  · rfl
  · rfl

end Term

end TermVM
