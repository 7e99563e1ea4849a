/-
  TermVM.Proofs.Term.Wire

  Terms and their bytes.

  A node is written as a record that leaves out what is zero or empty, and read
  back as the node it was.  The bytes of the record are read back within the
  bounds of the reader: a node takes up one level of nesting and its children
  another, so that the standard bounds cut the format at sixteen nodes on a way
  down.  With the nodes of terms this gives the exact round trip of terms.
-/
import TermVM.Proofs.Cbor.Reading
import TermVM.Proofs.Term.Node
import TermVM.Term.Wire

namespace TermVM

open Cbor Result

/-! ## Values -/

namespace Cbor.Item

section

variable (n : UInt8) (w : UInt32) (l : UInt64) (s : String)

@[simp] theorem toByte?_uint : (uint n.toUInt64).toByte? = some n := by
  have hlt : n.toNat < UInt8.size := n.toNat_lt
  simp [toByte?, toUInt?, untag, hlt]

@[simp] theorem toWord?_uint : (uint w.toUInt64).toWord? = some w := by
  have hlt : w.toNat < UInt32.size := w.toNat_lt
  simp [toWord?, toUInt?, untag, hlt]

@[simp] theorem toLong?_uint : (uint l).toLong? = some l := by
  have hlt : l.toNat < UInt64.size := l.toNat_lt
  simp [toLong?, toUInt?, untag, hlt]

@[simp] theorem toText?_text : (text s).toText? = some s := rfl

end

/-- A list is read back when each of its elements is. -/
theorem toListOf?_map {α : Type} {write : α → Item} {read : Item → Option α}
    (h : ∀ a, read (write a) = some a) (as : List α) :
    (array (as.map write)).toListOf? read = some as := by
  show (as.map write).mapM read = some as
  induction as with
  | nil => rfl
  | cons a as ih => simp [List.mapM_cons, h, ih]

end Cbor.Item

namespace Spelling

/-- The text that a name is read back as, if it is text. -/
def text? {ν : Type} [Spelling ν] (n : ν) : Option String :=
  (item n).toText?

end Spelling

@[simp] theorem Spelling.blank_string : (Spelling.blank : String) = "" := rfl

@[simp] theorem Spelling.item_string (s : String) : Spelling.item s = .text s := rfl

namespace Node

section

variable {ν : Type} [Spelling ν]

/-- Induction on nodes: a property holds of a node when it holds of its children. -/
@[elab_as_elim]
theorem kidInd {motive : Node ν → Prop} (step : ∀ n, (∀ k ∈ n.kids, motive k) → motive n)
    (n : Node ν) : motive n := by
  refine @Node.rec ν _ motive (fun ks => ∀ k ∈ ks, motive k) ?_ ?_ ?_ n
  · exact fun kind name index marker kids names extension num id ih =>
      step ⟨kind, name, index, marker, kids, names, extension, num, id⟩ ih
  · exact fun k hk => absurd hk List.not_mem_nil
  · exact fun k ks hk hks => List.forall_mem_cons.mpr ⟨hk, hks⟩

mutual

/-- The node whose names are the texts that the names of a node are read back as. -/
def text? : Node ν → Option Node
  | { kind, name, index, marker, kids, names, extension, num, id } => do
      let name ← Spelling.text? name
      let kids ← texts? kids
      let names ← names.mapM Spelling.text?
      return { kind, name, index, marker, kids, names, extension, num, id }

/-- The nodes of a list with their names as texts. -/
def texts? : List (Node ν) → Option (List Node)
  | [] => some []
  | n :: ns => do
      let m ← text? n
      let ms ← texts? ns
      return m :: ms

end

end

/-! ## Records -/

/-- A field of a record: whether it is written, its number and its value. -/
abbrev Field := Bool × UInt64 × Item

/-- The entries of the fields that are written. -/
def written (fields : List Field) : List (Item × Item) :=
  fields.flatMap fun f => entryIf f.1 f.2.1 f.2.2

section

variable {ν : Type} [DecidableEq ν] [Spelling ν]

theorem toItems_eq_map (ns : List (Node ν)) : toItems ns = ns.map toItem := by
  induction ns with
  | nil => rfl
  | cons n ns ih => rw [toItems, List.map_cons, ih]

/-- The fields of a node. -/
def fields (n : Node ν) : List Field :=
  [(true, 1, .uint n.kind.toUInt64),
   (n.name != Spelling.blank, 2, Spelling.item n.name),
   (n.index != 0, 3, .uint n.index.toUInt64),
   (n.marker != 0, 4, .uint n.marker.toUInt64),
   (!n.kids.isEmpty, 5, .array (toItems n.kids)),
   (!n.names.isEmpty, 6, .array (n.names.map Spelling.item)),
   (n.extension != 0, 7, .uint n.extension.toUInt64),
   (n.num != "", 8, .text n.num),
   (n.id != 0, 9, .uint n.id)]

theorem toItem_eq (n : Node ν) : n.toItem = .map (written n.fields) := by
  obtain ⟨kind, name, index, marker, kids, names, extension, num, id⟩ := n
  rw [toItem, Item.map.injEq]
  simp [written, fields, entryIf]

end

/-! ## Reading fields -/

/-- Reading fields into a node gives `result`, whichever of the fields before `number` have been
    read already. -/
def Reads (number : Nat) (fields : List Field) (node : Node) (result : Option Node) : Prop :=
  ∀ seen, (∀ m ∈ seen, m < number) → ofEntries? (written fields) seen node = result

theorem reads_nil (number : Nat) (node : Node) : Reads number [] node (some node) :=
  fun _ _ => rfl

/-- A field that is written is taken into the node, and one that is left out is zero there
    already. -/
theorem reads_cons {present : Bool} {number : UInt64} {k : Nat} {v : Item} {fields : List Field}
    {node : Node} {result : Option Node} (node' : Node)
    (htaken : ∀ rest seen, k ∉ seen →
      ofEntries? (entry number v :: rest) seen node = ofEntries? rest (k :: seen) node')
    (habsent : present = false → node' = node) (hrest : Reads (k + 1) fields node' result) :
    Reads k ((present, number, v) :: fields) node result := by
  intro seen hseen
  cases present with
  | false =>
    rw [← hrest seen fun m hm => Nat.lt_succ_of_lt (hseen m hm), habsent rfl]
    rfl
  | true =>
    have hnew : k ∉ seen := fun hm => Nat.lt_irrefl _ (hseen _ hm)
    rw [← hrest (k :: seen) (List.forall_mem_cons.mpr
      ⟨Nat.lt_succ_self _, fun m hm => Nat.lt_succ_of_lt (hseen m hm)⟩), ← htaken _ seen hnew]
    rfl

/-- A field that is written and cannot be read ends the reading. -/
theorem reads_refused {present : Bool} {number : UInt64} {k : Nat} {v : Item} {fields : List Field}
    {node : Node} (hpresent : present = true)
    (hrefused : ∀ rest seen, k ∉ seen → ofEntries? (entry number v :: rest) seen node = none) :
    Reads k ((present, number, v) :: fields) node none := by
  intro seen hseen
  have hnew : k ∉ seen := fun hm => Nat.lt_irrefl _ (hseen _ hm)
  rw [hpresent]
  exact hrefused _ seen hnew

section

variable {ν : Type} [DecidableEq ν] [Spelling ν]

theorem ofItems?_toItems {ns : List (Node ν)} (h : ∀ n ∈ ns, ofItem? n.toItem = n.text?) :
    ofItems? (toItems ns) = texts? ns := by
  induction ns with
  | nil => rfl
  | cons n ns ih =>
    obtain ⟨hn, hns⟩ := List.forall_mem_cons.mp h
    rw [toItems, ofItems?, texts?, hn, ih hns]

omit [DecidableEq ν] in
theorem toListOf?_names (names : List ν) :
    (Item.array (names.map Spelling.item)).toListOf? Item.toText? = names.mapM Spelling.text? := by
  show (names.map Spelling.item).mapM Item.toText? = names.mapM Spelling.text?
  induction names with
  | nil => rfl
  | cons n ns ih =>
    rw [List.map_cons, List.mapM_cons, List.mapM_cons, ih]
    rfl

/-- The record of a node is read as the node if all its names are text, and refused otherwise. -/
theorem ofItem?_toItem (n : Node ν) : ofItem? n.toItem = n.text? := by
  induction n using kidInd with
  | step n ih =>
    obtain ⟨kind, name, index, marker, kids, names, extension, num, id⟩ := n
    have hkids : kidsOfItem? (.array (toItems kids)) = texts? kids := ofItems?_toItems ih
    have hblank : Spelling.text? (Spelling.blank : ν) = some "" := by
      rw [Spelling.text?, Spelling.item_blank]
      rfl
    rw [toItem_eq, ofItem?, text?]
    -- What has been read so far is the node up to the field that comes next.
    refine (?_ : Reads 1 _ _ _) [] (by simp)
    refine reads_cons { kind } ?_ (by simp) ?_
    · intro rest seen hnew
      simp [entry, ofEntries?, Key.ofItem, hnew]
    cases hname : Spelling.text? name with
    | none =>
      have hwritten : name ≠ Spelling.blank := by
        rintro rfl
        rw [hblank] at hname
        cases hname
      refine reads_refused (by simpa using hwritten) fun rest seen hnew => ?_
      have htext : (Spelling.item name).toText? = none := hname
      simp [entry, ofEntries?, Key.ofItem, hnew, htext]
    | some name' =>
    have htext : (Spelling.item name).toText? = some name' := hname
    refine reads_cons { kind, name := name' } ?_ (fun habsent => ?_) <|
      reads_cons { kind, name := name', index } ?_ (by simp) <|
      reads_cons { kind, name := name', index, marker } ?_ (by simp) ?_
    · intro rest seen hnew
      simp [entry, ofEntries?, Key.ofItem, hnew, htext]
    · obtain rfl : name = Spelling.blank := by simpa using habsent
      obtain rfl := Option.some.inj (hname.symm.trans hblank)
      rfl
    · intro rest seen hnew
      simp [entry, ofEntries?, Key.ofItem, hnew]
    · intro rest seen hnew
      simp [entry, ofEntries?, Key.ofItem, hnew]
    cases hbelow : texts? kids with
    | none =>
      have hwritten : kids ≠ [] := by
        rintro rfl
        cases hbelow
      refine reads_refused (by simpa using hwritten) fun rest seen hnew => ?_
      simp [entry, ofEntries?, Key.ofItem, hnew, hkids, hbelow]
    | some kids' =>
    refine reads_cons { kind, name := name', index, marker, kids := kids' } ?_ (fun habsent => ?_) ?_
    · intro rest seen hnew
      simp [entry, ofEntries?, Key.ofItem, hnew, hkids, hbelow]
    · obtain rfl : kids = [] := by simpa using habsent
      cases hbelow
      rfl
    cases hlist : names.mapM Spelling.text? with
    | none =>
      have hwritten : names ≠ [] := by
        rintro rfl
        cases hlist
      refine reads_refused (by simpa using hwritten) fun rest seen hnew => ?_
      simp [entry, ofEntries?, Key.ofItem, hnew, toListOf?_names, hlist]
    | some names' =>
    refine reads_cons { kind, name := name', index, marker, kids := kids', names := names' } ?_
        (fun habsent => ?_) <|
      reads_cons { kind, name := name', index, marker, kids := kids', names := names', extension }
        ?_ (by simp) <|
      reads_cons
        { kind, name := name', index, marker, kids := kids', names := names', extension, num }
        ?_ (by simp) <|
      reads_cons
        { kind, name := name', index, marker, kids := kids', names := names', extension, num, id }
        ?_ (by simp) <|
      reads_nil _ _
    · intro rest seen hnew
      simp [entry, ofEntries?, Key.ofItem, hnew, toListOf?_names, hlist]
    · obtain rfl : names = [] := by simpa using habsent
      cases hlist
      rfl
    all_goals
      intro rest seen hnew
      simp [entry, ofEntries?, Key.ofItem, hnew]

end

theorem mapM_text? (ss : List String) : ss.mapM Spelling.text? = some ss := by
  induction ss with
  | nil => rfl
  | cons s ss ih =>
    rw [List.mapM_cons, ih]
    rfl

/-- A node whose names are text is read back as it is. -/
@[simp] theorem text?_self (n : Node) : n.text? = some n := by
  induction n using kidInd with
  | step n ih =>
    obtain ⟨kind, name, index, marker, kids, names, extension, num, id⟩ := n
    have hkids : texts? kids = some kids := by
      replace ih : ∀ k ∈ kids, k.text? = some k := ih
      induction kids with
      | nil => rfl
      | cons k ks ihks =>
        obtain ⟨hk, hks⟩ := List.forall_mem_cons.mp ih
        rw [texts?, hk, ihks hks]
        rfl
    rw [text?, hkids, mapM_text?]
    rfl

/-- A node whose names are text is read as what it was written from. -/
theorem ofItem?_toItem_self (n : Node) : ofItem? n.toItem = some n := by
  rw [ofItem?_toItem, text?_self]

/-! ## Bounds -/

/-- The texts that a node holds itself. -/
def texts (n : Node) : List String :=
  n.name :: n.num :: n.names

theorem length_written_le (fields : List Field) : (written fields).length ≤ fields.length := by
  induction fields with
  | nil => exact Nat.le_refl 0
  | cons f fields ih =>
    have hentry : (entryIf f.1 f.2.1 f.2.2).length ≤ 1 := by
      cases f.1 <;> simp [entryIf]
    show (entryIf f.1 f.2.1 f.2.2 ++ written fields).length ≤ fields.length + 1
    rw [List.length_append]
    omega

theorem readableEntries_written (limits : Limits) (levels : Nat) (fields : List Field) :
    Item.readableEntries limits (written fields) levels
      = fields.all fun f => !f.1 || f.2.2.readable limits false levels := by
  induction fields with
  | nil => rfl
  | cons f fields ih =>
    obtain ⟨present, number, v⟩ := f
    rw [List.all_cons, ← ih]
    cases present with
    | false => rfl
    | true =>
      show Item.readableEntries limits (entry number v :: written fields) levels = _
      rw [entry, Item.readableEntries]
      rfl

/-- An empty text is within the bounds, so a text that is left out need not be told apart. -/
theorem readable_text_field (limits : Limits) (levels : Nat) (s : String) :
    (!(s != "") || (Item.text s).readable limits false levels) = true ↔
      (utf8 s).length < UInt64.size := by
  by_cases hs : s = ""
  · subst hs
    exact iff_of_true rfl (by decide)
  · simp [Item.readable, hs]

theorem readable_list_field {α : Type} {limits : Limits} (hhigh : limits.elements < UInt64.size)
    (levels : Nat) (toItem : α → Item) (xs : List α) :
    (!(!xs.isEmpty) || (Item.array (xs.map toItem)).readable limits false levels) = true ↔
      (xs ≠ [] → xs.length ≤ limits.elements ∧ 0 < levels ∧
        ∀ x ∈ xs, (toItem x).readable limits false (levels - 1) = true) := by
  rw [Bool.not_not, Bool.or_eq_true, List.isEmpty_iff, Decidable.or_iff_not_imp_left,
    Item.readable, Item.readableItems_eq_all, List.length_map]
  refine imp_congr_right fun _ => ?_
  simp only [Bool.and_eq_true, decide_eq_true_eq, List.all_eq_true, List.forall_mem_map]
  constructor
  · rintro ⟨⟨⟨-, helements⟩, hlevels⟩, hall⟩
    exact ⟨helements, hlevels, hall⟩
  · rintro ⟨helements, hlevels, hall⟩
    exact ⟨⟨⟨Nat.lt_of_le_of_lt helements hhigh, helements⟩, hlevels⟩, hall⟩

/-- A node keeps to the bounds of a reader when its texts and its lists do, and its children do two
    levels further down. -/
theorem readable_toItem {limits : Limits} (hlow : 9 ≤ limits.elements)
    (hhigh : limits.elements < UInt64.size) (n : Node) (levels : Nat) :
    n.toItem.readable limits false levels = true ↔
      0 < levels ∧ (∀ s ∈ n.texts, (utf8 s).length < UInt64.size) ∧
      (n.kids ≠ [] → n.kids.length ≤ limits.elements ∧ 1 < levels ∧
        ∀ k ∈ n.kids, k.toItem.readable limits false (levels - 2) = true) ∧
      (n.names ≠ [] → n.names.length ≤ limits.elements ∧ 1 < levels) := by
  have hcount : (written n.fields).length ≤ 9 := length_written_le n.fields
  have hsize : (written n.fields).length < UInt64.size := by omega
  have hkids := readable_list_field hhigh (levels - 1) toItem n.kids
  have hnames := readable_list_field hhigh (levels - 1) Spelling.item n.names
  have huint (x : UInt64) : (Item.uint x).readable limits false (levels - 1) = true := rfl
  have hbelow : 0 < levels - 1 ↔ 1 < levels := by omega
  rw [toItem_eq, Item.readable, readableEntries_written, decide_eq_true hsize,
    decide_eq_true (Nat.le_trans hcount hlow), Bool.true_and, Bool.true_and, Bool.and_eq_true,
    decide_eq_true_eq]
  refine and_congr_right fun hlevels => ?_
  simp only [fields, List.all_cons, List.all_nil, Bool.and_eq_true, Spelling.blank_string,
    Spelling.item_string, readable_text_field, toItems_eq_map, hkids, hnames, huint, hbelow,
    Nat.sub_sub, Bool.or_true, texts, List.forall_mem_cons]
  simp only [Item.readable, decide_eq_true_eq]
  constructor
  · rintro ⟨-, hname, -, -, hkids, hnames, -, hnum, -⟩
    refine ⟨⟨hname, hnum, fun s hs => ?_⟩, hkids, fun hne => ?_⟩
    · exact (hnames (List.ne_nil_of_mem hs)).2.2 s hs
    · exact ⟨(hnames hne).1, (hnames hne).2.1⟩
  · rintro ⟨⟨hname, hnum, htexts⟩, hkids, hnames⟩
    have hlist : n.names ≠ [] → n.names.length ≤ limits.elements ∧ 1 < levels ∧
        ∀ s ∈ n.names, (utf8 s).length < UInt64.size :=
      fun hne => ⟨(hnames hne).1, (hnames hne).2, htexts⟩
    exact ⟨trivial, hname, trivial, trivial, hkids, hlist, trivial, hnum, trivial, trivial⟩

theorem forall_mem_ofTerms? {P : Node → Prop} {Q : Term → Prop} {ts : List Term} {ns : List Node}
    (h : ofTerms? ts = some ns)
    (hPQ : ∀ t ∈ ts, ∀ n, ofTerm? t = some n → (P n ↔ Q t)) :
    (∀ n ∈ ns, P n) ↔ ∀ t ∈ ts, Q t := by
  induction ts generalizing ns with
  | nil =>
    cases h
    simp
  | cons t ts ih =>
    obtain ⟨n, rest, hn, hrest, rfl⟩ := ofTerms?_cons.mp h
    obtain ⟨hfirst, hothers⟩ := List.forall_mem_cons.mp hPQ
    rw [List.forall_mem_cons, List.forall_mem_cons, hfirst n hn, ih hrest hothers]

end Node

namespace Term

/-- Whether a term alone keeps to the bounds of a reader: it has few children, and a text has fewer
    than `2 ^ 64` bytes, for a longer one has no head. -/
def Fits (limits : Limits) (t : Term) : Prop :=
  t.children.length ≤ limits.elements ∧ ∀ s ∈ t.shell.texts, (utf8 s).length < UInt64.size

theorem length_names_shell (t : Term) : t.shell.names.length ≤ t.children.length := by
  cases t with
  | letIn bindings body => simp [shell, children]
  | _ => exact Nat.zero_le _

/-- A node takes up a level and its children another. -/
theorem two_mul_height_le_iff {t : Term} {levels : Nat} :
    2 * t.height ≤ levels + 1 ↔ 0 < levels ∧ (t.children ≠ [] → 1 < levels) ∧
      ∀ c ∈ t.children, 2 * c.height ≤ levels - 2 + 1 := by
  have hpos := t.height_pos
  rcases levels with _ | _ | l
  · omega
  · have hone : 2 * t.height ≤ 0 + 1 + 1 ↔ t.height ≤ 0 + 1 := by omega
    rw [hone, height_le_succ_iff]
    constructor
    · intro hchildren
      exact ⟨Nat.one_pos, fun hne => absurd (hchildren _ (List.head_mem hne))
        (Nat.not_le_of_lt (height_pos _)), fun c hc => by have := hchildren c hc; omega⟩
    · rintro ⟨-, hleaf, -⟩ c hc
      exact absurd (hleaf (List.ne_nil_of_mem hc)) (Nat.lt_irrefl 1)
  · have hsucc : 2 * t.height ≤ l + 1 + 1 + 1 ↔ t.height ≤ (l + 1) / 2 + 1 := by omega
    have hchild (c : Term) : c.height ≤ (l + 1) / 2 ↔ 2 * c.height ≤ l + 1 + 1 - 2 + 1 := by omega
    rw [hsucc, height_le_succ_iff]
    simp only [hchild]
    simp

/-- The node of a term keeps to the bounds of a reader when every part of the term does and the term
    is not too high. -/
theorem readable_toItem_iff {limits : Limits} (hlow : 9 ≤ limits.elements)
    (hhigh : limits.elements < UInt64.size) (t : Term) : ∀ n, Node.ofTerm? t = some n → ∀ levels,
    (n.toItem.readable limits false levels = true ↔
      2 * t.height ≤ levels + 1 ∧ ∀ u ∈ t.parts, u.Fits limits) := by
  induction t using Term.childInd with
  | step t ih =>
    intro n hn levels
    obtain ⟨-, ks, hks, rfl⟩ := Node.ofTerm?_eq_some hn
    have hlength := Node.length_ofTerms? hks
    have hempty : ks ≠ [] ↔ t.children ≠ [] := by
      rw [← List.length_pos_iff, ← List.length_pos_iff, hlength]
    have hbelow := Node.forall_mem_ofTerms? hks fun c hc k hk => ih c hc k hk (levels - 2)
    rw [Node.readable_toItem hlow hhigh, two_mul_height_le_iff, forall_parts]
    dsimp only
    rw [hbelow, hempty, hlength]
    constructor
    · rintro ⟨hlevels, htexts, hkids, -⟩
      have hchild {c : Term} (hc : c ∈ t.children) := (hkids (List.ne_nil_of_mem hc)).2.2 c hc
      refine ⟨⟨hlevels, fun hne => (hkids hne).2.1, fun c hc => (hchild hc).1⟩, ⟨?_, htexts⟩,
        fun c hc => (hchild hc).2⟩
      by_cases hleaf : t.children = []
      · simp [hleaf]
      · exact (hkids hleaf).1
    · rintro ⟨⟨hlevels, hnested, hheights⟩, ⟨hcount, htexts⟩, hparts⟩
      refine ⟨hlevels, htexts, fun hne => ⟨hcount, hnested hne, fun c hc =>
        ⟨hheights c hc, hparts c hc⟩⟩, fun hnames => ?_⟩
      -- Only bindings have names, and there is a child for each of them.
      have hfewer := t.length_names_shell
      have hsome := List.length_pos_iff.mpr hnames
      exact ⟨Nat.le_trans hfewer hcount, hnested (List.length_pos_iff.mp (by omega))⟩

theorem decode_encode_eq_ok {n : Node} {t : Term} :
    decode n.toItem.encode = .ok t ↔
      n.toItem.readable .standard false 32 = true ∧ n.toTerm = .ok t := by
  have hread : Cbor.decode? n.toItem.encode
      = if n.toItem.readable .standard false 32 then some n.toItem else none :=
    decodeWithin_encode .standard n.toItem
  rw [decode, hread]
  by_cases hreadable : n.toItem.readable .standard false 32 = true
  · rw [if_pos hreadable, Option.bind_some, Node.ofItem?_toItem_self]
    show n.toTerm.mapError WireError.malformed = .ok t ↔ _
    rw [mapError_eq_ok, and_iff_right hreadable]
  · rw [if_neg hreadable]
    exact iff_of_false (fun h => by cases h) fun h => hreadable h.1

/-- The bytes of a term are read as the term or not at all.  They are read when the term has at most
    sixteen nodes on a way down, every part of it is of a shape that nodes stand for, and none has
    more children than a list may have elements or a text whose length takes more than 64 bits. -/
theorem decode_encode? {t : Term} {bytes : Bytes} (h : t.encode? = some bytes) {t' : Term} :
    decode bytes = .ok t' ↔
      (t.height ≤ 16 ∧ ∀ u ∈ t.parts, u.isRegular = true ∧ u.children.length ≤ 131072 ∧
        ∀ s ∈ u.shell.texts, (utf8 s).length < UInt64.size) ∧ t' = t := by
  obtain ⟨n, hn, hbytes⟩ := Option.bind_eq_some_iff.mp h
  obtain rfl := Option.some.inj hbytes
  have hreadable : n.toItem.readable .standard false 32 = true ↔
      2 * t.height ≤ 32 + 1 ∧ ∀ u ∈ t.parts, u.Fits .standard :=
    readable_toItem_iff (by decide) (by decide) t n hn 32
  have hheight : 2 * t.height ≤ 32 + 1 ↔ t.height ≤ 16 := by omega
  rw [decode_encode_eq_ok, hreadable, Node.rebuilds t n hn t', hheight, and_assoc, and_assoc]
  refine and_congr_right fun _ => ?_
  rw [← and_assoc]
  refine and_congr_left' ⟨fun h u hu => ⟨h.2 u hu, h.1 u hu⟩, fun h => ?_⟩
  exact ⟨fun u hu => (h u hu).2, fun u hu => (h u hu).1⟩

end Term

end TermVM
