/-
  TermVM.Term.Node

  Nodes: the form in which `vmgen`'s terms travel (`Node`).  A node has the same
  fields whatever term it stands for; `ofTerm?` and `toTerm` relate the two.  A
  term with an absent part has no node, and not every node is a term.
-/
import TermVM.Cbor.Item
import TermVM.Term.Basic
import TermVM.Text.Quoted

namespace TermVM

/-- The travelling form of a term. -/
structure Node (ν : Type := String) [Spelling ν] where
  kind : UInt8 := 0
  name : ν := Spelling.blank
  index : UInt32 := 0
  marker : UInt8 := 0
  kids : List (Node ν) := []
  names : List ν := []
  /-- Which extension an extension node is. -/
  extension : UInt8 := 0
  num : String := ""
  id : UInt64 := 0
  deriving Repr, Inhabited

namespace Node

variable {ν : Type} [Spelling ν]

/-! ## From terms -/

mutual

/-- The node of a term without absent parts. -/
def ofTerm? : Term ν → Option (Node ν)
  | .absent => none
  | .var index => some { kind := Kind.var.toByte, index := index }
  | .sort level => some { kind := Kind.sort.toByte, name := level }
  | .mvar name => some { kind := Kind.mvar.toByte, name := name }
  | .const name marker =>
      some { kind := Kind.const.toByte, name := name, marker := marker.kind.toByte,
             index := marker.index }
  | .fvar id name => some { kind := Kind.fvar.toByte, name := name, id := id }
  | .app fn args => do
      let f ← ofTerm? fn
      let as ← ofTerms? args
      return { kind := Kind.app.toByte, kids := f :: as }
  | .lam binder body => do
      let b ← ofTerm? body
      return { kind := Kind.lam.toByte, name := binder, kids := [b] }
  | .pi binder domain body => do
      let d ← ofTerm? domain
      let b ← ofTerm? body
      return { kind := Kind.pi.toByte, name := binder, kids := [d, b] }
  | .letIn bindings body => do
      let vs ← ofBindings? bindings
      let b ← ofTerm? body
      return { kind := Kind.letIn.toByte, names := bindings.map (·.1), kids := vs ++ [b] }
  | .nat value =>
      some { kind := Kind.extension.toByte, extension := 1, num := Text.decimal value }
  | .quote body => do
      let b ← ofTerm? body
      return { kind := Kind.extension.toByte, extension := 2, kids := [b] }
  | .ann name body => do
      let b ← ofTerm? body
      return { kind := Kind.extension.toByte, extension := 3, name := name, kids := [b] }
  | .foreign name args => do
      let as ← ofTerms? args
      return { kind := Kind.extension.toByte, extension := 4, name := name, kids := as }

/-- The nodes of a list of terms. -/
def ofTerms? : List (Term ν) → Option (List (Node ν))
  | [] => some []
  | t :: ts => do
      let n ← ofTerm? t
      let ns ← ofTerms? ts
      return n :: ns

/-- The nodes of the values of a list of bindings. -/
def ofBindings? : List (ν × Term ν) → Option (List (Node ν))
  | [] => some []
  | (_, v) :: bs => do
      let n ← ofTerm? v
      let ns ← ofBindings? bs
      return n :: ns

end

/-! ## To terms -/

/-- Why a node is no term. -/
inductive Malformed where
  | children (kind : UInt8) (given wanted : Nat)
  | marker (code : UInt8)
  | application
  | literal (num : String)
  | extension (code : UInt8)
  | kind (code : UInt8)
  deriving DecidableEq, Repr

/-- The text of a defect. -/
def Malformed.message (m : Malformed) : String :=
  "ir: malformed node: " ++ match m with
  | children shape given wanted =>
      Kind.nameOfByte shape ++ " has " ++ Text.decimal given ++ " children, want "
        ++ Text.decimal wanted
  | marker code => "unknown marker " ++ Text.decimal code.toNat
  | application => "App needs a function and at least one argument"
  | literal num => "bad natural literal " ++ Text.quoted num
  | extension code => "unknown macro tag " ++ Text.decimal code.toNat
  | kind code => "unknown kind " ++ Text.decimal code.toNat

/-- The extension that a node without further checks stands for. -/
inductive Extension where
  | literal
  | quotation
  | annotated
  | foreign
  deriving DecidableEq, Repr

/-- The extension of a byte, if it names one. -/
def Extension.ofByte? (b : UInt8) : Option Extension :=
  match b.toNat with
  | 1 => some .literal
  | 2 => some .quotation
  | 3 => some .annotated
  | 4 => some .foreign
  | _ => none

mutual

/-- The term of a node.  The number of children is checked before the children themselves,
    except for an application, whose children are rebuilt first. -/
def toTerm : Node ν → Except Malformed (Term ν)
  | { kind, name, index, marker, kids, names, extension, num, id } =>
      let one : Except Malformed (Term ν) := do
        if kids.length ≠ 1 then throw (.children kind kids.length 1)
        let ts ← toTerms kids
        return ts.headD .absent
      match Kind.ofByte? kind with
      | none => .error (.kind kind)
      | some .var => .ok (.var index)
      | some .sort => .ok (.sort name)
      | some .mvar => .ok (.mvar name)
      | some .const =>
          if 5 < marker then .error (.marker marker)
          else .ok (.const name ⟨.ofByte marker, index⟩)
      | some .fvar => .ok (.fvar id name)
      | some .app => do
          let ts ← toTerms kids
          match ts with
          | fn :: arg :: args => return .app fn (arg :: args)
          | _ => throw .application
      | some .lam => return .lam name (← one)
      | some .pi => do
          if kids.length ≠ 2 then throw (.children kind kids.length 2)
          let ts ← toTerms kids
          return .pi name (ts.headD .absent) (ts.getLastD .absent)
      | some .letIn => do
          if kids.length ≠ names.length + 1 then
            throw (.children kind kids.length (names.length + 1))
          let ts ← toTerms kids
          return .letIn (names.zip ts) (ts.getLastD .absent)
      | some .extension =>
          match Extension.ofByte? extension with
          | none => .error (.extension extension)
          | some .literal =>
              match (Text.readInt? num.toList).filter (0 ≤ ·) with
              | some v => .ok (.nat v)
              | none => .error (.literal num)
          | some .quotation => return .quote (← one)
          | some .annotated => return .ann name (← one)
          | some .foreign => return .foreign name (← toTerms kids)

/-- The terms of a list of nodes. -/
def toTerms : List (Node ν) → Except Malformed (List (Term ν))
  | [] => .ok []
  | n :: ns => do
      let t ← toTerm n
      let ts ← toTerms ns
      return t :: ts

end

end Node

end TermVM
