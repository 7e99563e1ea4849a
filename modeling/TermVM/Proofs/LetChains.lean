/-
  TermVM.Proofs.LetChains

  Lets that follow each other directly are one chain.

  A let whose body is a let can be written as one let with the bindings of
  both.  `Term.Merges` does this at one place of a term that is not quoted, and
  the code stays the same to the last instruction, as does a failure
  (`Opening.compileProcedure_letChains`).

  Where binders are counted the step is easy to take anywhere in a term: terms
  have the same code when code generation does the same for both in any
  surroundings, and when they make the same head of an application, and every
  construct keeps this.  `Opening.compileProcedure_eq` carries it over to code
  generation that opens binders.  What a whole chain does there is said by
  `continueLet_chain`: the locals of the outer lets are put in before those of
  the inner ones, which comes to the same as putting in all of them at once.
-/
import Mathlib.Logic.Relation
import TermVM.Proofs.Opening

namespace TermVM

/-- Merges a let with the let that is its body, somewhere outside quotations. -/
inductive Term.Merges : Term → Term → Prop
  | merge (outer inner : List (String × Term)) (body : Term) :
      Merges (.letIn outer (.letIn inner body)) (.letIn (outer ++ inner) body)
  | fn {f f' : Term} (h : Merges f f') (args : List Term) : Merges (.app f args) (.app f' args)
  | arg (f : Term) (before after : List Term) {a a' : Term} (h : Merges a a') :
      Merges (.app f (before ++ a :: after)) (.app f (before ++ a' :: after))
  | lam (binder : String) {body body' : Term} (h : Merges body body') :
      Merges (.lam binder body) (.lam binder body')
  | domain (binder : String) {domain domain' : Term} (h : Merges domain domain') (body : Term) :
      Merges (.pi binder domain body) (.pi binder domain' body)
  | codomain (binder : String) (domain : Term) {body body' : Term} (h : Merges body body') :
      Merges (.pi binder domain body) (.pi binder domain body')
  | value (before after : List (String × Term)) (name : String) {v v' : Term} (h : Merges v v')
      (body : Term) :
      Merges (.letIn (before ++ (name, v) :: after) body)
        (.letIn (before ++ (name, v') :: after) body)
  | body (bindings : List (String × Term)) {body body' : Term} (h : Merges body body') :
      Merges (.letIn bindings body) (.letIn bindings body')
  | ann (name : String) {body body' : Term} (h : Merges body body') :
      Merges (.ann name body) (.ann name body')
  | foreign (name : String) (before after : List Term) {a a' : Term} (h : Merges a a') :
      Merges (.foreign name (before ++ a :: after)) (.foreign name (before ++ a' :: after))

namespace Codegen

/-! ## Equal code -/

/-- Code generation does the same for two terms in any surroundings, and they make the same head of
    an application. -/
structure SameCode (g : Globals) (s t : Term) : Prop where
  code : compileTerm g s = compileTerm g t
  head : g.head s = g.head t

variable {g : Globals}

namespace SameCode

theorem refl (t : Term) : SameCode g t t :=
  ⟨rfl, rfl⟩

end SameCode

/-- One element of a list is exchanged. -/
theorem forall₂_exchange {α : Type} {R : α → α → Prop} (hrefl : ∀ x, R x x) (xs ys : List α)
    {a b : α} (h : R a b) : List.Forall₂ R (xs ++ a :: ys) (xs ++ b :: ys) := by
  induction xs with
  | nil => exact .cons h (List.forall₂_same.mpr fun y _ => hrefl y)
  | cons x xs ih => exact .cons (hrefl x) ih

section Lists

variable {as bs : List Term} (h : List.Forall₂ (SameCode g) as bs)

include h

theorem compileArgs_congr : compileArgs g as = compileArgs g bs := by
  induction h with
  | nil => rfl
  | cons h _ ih =>
    funext depth scope
    rw [compileArgs, compileArgs, h.code, ih]

theorem compileArgsRev_congr : compileArgsRev g as = compileArgsRev g bs := by
  induction h with
  | nil => rfl
  | cons h hrest ih =>
    funext depth scope
    rw [compileArgsRev, compileArgsRev, h.code, ih, hrest.length_eq]

theorem compileProjection_congr (index : UInt32) :
    compileProjection g index as = compileProjection g index bs := by
  cases h with
  | nil => rfl
  | cons h hrest =>
    funext depth scope
    rw [compileProjection, compileProjection, h.code, compileArgsRev_congr hrest, hrest.length_eq]

theorem compileAlternatives_congr : compileAlternatives g as = compileAlternatives g bs := by
  induction h with
  | nil => rfl
  | @cons a b as bs h hrest ih =>
    have hlast : as.isEmpty = bs.isEmpty := by cases hrest <;> rfl
    funext depth scope
    rw [compileAlternatives, compileAlternatives, h.code, ih, hlast]

theorem compileAnalysis_congr (head : CaseHead) :
    compileAnalysis g head as = compileAnalysis g head bs := by
  funext depth scope
  cases h with
  | nil => rfl
  | cons h hrest =>
    simp only [compileAnalysis, List.length_cons, hrest.length_eq, h.code,
      compileAlternatives_congr hrest]

end Lists

theorem compileBindings_congr {bs bs' : List (String × Term)}
    (h : List.Forall₂ (fun b b' => SameCode g b.2 b'.2) bs bs') :
    compileBindings g bs = compileBindings g bs' := by
  induction h with
  | nil => rfl
  | cons h _ ih =>
    funext depth scope
    rw [compileBindings, compileBindings, h.code, ih]

namespace SameCode

theorem app {fn fn' : Term} {args args' : List Term} (hfn : SameCode g fn fn')
    (hargs : List.Forall₂ (SameCode g) args args') :
    SameCode g (.app fn args) (.app fn' args') where
  code := by
    funext role depth scope
    rw [compileTerm_app, compileTerm_app, hfn.head, hfn.code, hargs.length_eq,
      compileArgs_congr hargs, compileArgsRev_congr hargs]
    simp only [compileProjection_congr hargs, compileAnalysis_congr hargs]
  head := rfl

theorem letIn {bs bs' : List (String × Term)} {body body' : Term}
    (hbs : List.Forall₂ (fun b b' => SameCode g b.2 b'.2) bs bs') (hbody : SameCode g body body') :
    SameCode g (.letIn bs body) (.letIn bs' body') where
  code := by
    funext role depth scope
    simp only [compileTerm, compileBindings_congr hbs, hbody.code, hbs.length_eq]
  head := rfl

theorem lam (binder : String) {body body' : Term} (h : SameCode g body body') :
    SameCode g (.lam binder body) (.lam binder body') where
  code := by
    funext role depth scope
    simp only [compileTerm, h.code]
  head := rfl

theorem ann (name : String) {body body' : Term} (h : SameCode g body body') :
    SameCode g (.ann name body) (.ann name body') where
  code := by
    funext role depth scope
    simp only [compileTerm, h.code]
  head := rfl

/-- A function type has no code, whatever its parts. -/
theorem pi (binder : String) (domain domain' body body' : Term) :
    SameCode g (.pi binder domain body) (.pi binder domain' body') where
  code := by
    funext role depth scope
    simp only [compileTerm]
  head := rfl

/-- An extension that is not known has no code, whatever its arguments. -/
theorem foreign (name : String) (args args' : List Term) :
    SameCode g (.foreign name args) (.foreign name args') where
  code := by
    funext role depth scope
    simp only [compileTerm]
  head := rfl

theorem withArgs {s t : Term} (h : SameCode g s t) (pending : Option (List Term)) :
    SameCode g (s.withArgs pending) (t.withArgs pending) := by
  cases pending with
  | none => exact h
  | some args => exact h.app (List.forall₂_same.mpr fun a _ => .refl a)

end SameCode

/-! ## One step -/

theorem compileBindings_append (xs ys : List (String × Term)) (depth : Nat) (scope : Scope) :
    compileBindings g (xs ++ ys) depth scope =
      compileBindings g xs depth scope >>= compileBindings g ys (depth + xs.length) := by
  induction xs generalizing depth scope with
  | nil => simp [compileBindings]
  | cons x xs ih =>
    simp only [List.cons_append, compileBindings, ih, List.length_cons, bind_assoc,
      Nat.add_right_comm depth 1, Nat.add_assoc]

/-- The inner let goes on with the slots and identities where the outer one ends. -/
theorem sameCode_merge (outer inner : List (String × Term)) (body : Term) :
    SameCode g (.letIn outer (.letIn inner body)) (.letIn (outer ++ inner) body) where
  code := by
    funext role depth scope
    cases role <;>
      simp only [compileTerm, compileBindings_append, List.length_append, bind_assoc, Nat.add_assoc]
  head := rfl

/-- Pending arguments with the same code leave a chain with the same code. -/
theorem sameCode_pending (t : Term) {as bs : List Term} (h : List.Forall₂ (SameCode g) as bs) :
    SameCode g (t.flattenWith false (some as)) (t.flattenWith false (some bs)) := by
  induction t using Term.ind generalizing as bs with
  | app fn args ihfn _ =>
    -- the arguments of an inner link come before those that are pending
    simp only [Term.flattenWith, Option.getD_some]
    exact ihfn (List.rel_append (List.forall₂_same.mpr fun a _ => .refl a) h)
  | _ =>
    -- anything else is the head of the chain
    exact (SameCode.refl _).app h

theorem sameCode_flattenWith {t t' : Term} (h : t.Merges t') (pending : Option (List Term)) :
    SameCode g (t.flattenWith false pending) (t'.flattenWith false pending) := by
  induction h generalizing pending with
  | merge outer inner body =>
    simp only [Term.flattenWith, Term.flattenBindings_eq_map, List.map_append]
    exact (sameCode_merge _ _ _).withArgs pending
  | fn h args ih =>
    simp only [Term.flattenWith]
    exact ih _
  | arg f before after h ih =>
    simp only [Term.flattenWith, Term.flattenArgs_eq_map, List.map_append, List.map_cons]
    exact sameCode_pending f (List.rel_append (forall₂_exchange .refl _ _ (ih none))
      (List.forall₂_same.mpr fun a _ => .refl a))
  | lam binder h ih => exact ((ih none).lam binder).withArgs pending
  | domain binder h body ih => exact (SameCode.pi ..).withArgs pending
  | codomain binder domain h ih => exact (SameCode.pi ..).withArgs pending
  | value before after name h body ih =>
    simp only [Term.flattenWith, Term.flattenBindings_eq_map, List.map_append, List.map_cons]
    exact (SameCode.letIn (forall₂_exchange (fun b => .refl b.2) _ _ (ih none))
      (.refl _)).withArgs pending
  | body bindings h ih =>
    exact (SameCode.letIn (List.forall₂_same.mpr fun b _ => .refl b.2) (ih none)).withArgs pending
  | ann name h ih => exact ((ih none).ann name).withArgs pending
  | foreign name before after h ih => exact (SameCode.foreign ..).withArgs pending

/-! ## Procedures -/

theorem arity_of_merges {t t' : Term} (h : t.Merges t') : t.arity = t'.arity := by
  induction h with
  | lam binder h ih => exact congrArg (· + 1) ih
  | _ => rfl

theorem sameCode_bodyOf {t t' : Term} (h : t.Merges t') :
    SameCode g (bodyOf t).flatten (bodyOf t').flatten := by
  have hwhole := sameCode_flattenWith (g := g) h none
  induction h with
  | lam binder h ih => exact ih (sameCode_flattenWith h none)
  | _ =>
    -- what is not a lambda is its own body
    exact hwhole

theorem compileProcedure_of_merges (g : Globals) (name : String) {t t' : Term} (h : t.Merges t') :
    compileProcedure g name t = compileProcedure g name t' := by
  unfold compileProcedure compileBody
  rw [arity_of_merges h, (sameCode_bodyOf h).code]

theorem nodesOfBindings_append (xs ys : List (String × Term)) :
    Term.nodesOfBindings (xs ++ ys) = Term.nodesOfBindings xs + Term.nodesOfBindings ys := by
  induction xs with
  | nil => rw [List.nil_append, Term.nodesOfBindings, Nat.zero_add]
  | cons x xs ih => rw [List.cons_append, Term.nodesOfBindings, Term.nodesOfBindings, ih,
      Nat.add_assoc]

/-- Merging makes a term smaller. -/
theorem nodes_lt_of_merges {t t' : Term} (h : t.Merges t') : t'.nodes < t.nodes := by
  induction h with
  | merge outer inner body =>
    simp only [Term.nodes, nodesOfBindings_append]
    omega
  | value before after name h body ih =>
    simp only [Term.nodes, nodesOfBindings_append, Term.nodesOfBindings]
    omega
  | _ =>
    simp only [Term.nodes, Term.nodesOfArgs_append, Term.nodesOfArgs]
    omega

/-! ## Whole chains -/

namespace Opening

/-- What follows needs to be the same for the values that are come to. -/
theorem bind_congr_of_ok {α β : Type} {x : Gen α} {k k' : α → Gen β}
    (h : ∀ s a s', x s = .ok (a, s') → k a = k' a) : x >>= k = x >>= k' := by
  funext s
  cases hx : x s with
  | error e => rw [run_bind_error hx, run_bind_error hx]
  | ok r =>
    obtain ⟨a, s'⟩ := r
    rw [run_bind_ok hx, run_bind_ok hx, h s a s' hx]

/-- Values that are bound after others see the locals of those, whether they are put in before or
    together with their own. -/
theorem compileBindings_instantiate (bs : List (String × Term)) (locals new : List Local)
    (depth : Nat) (scope : Scope) :
    compileBindings g bs (locals ++ new) depth scope =
      compileBindings g (Term.instantiateBindings (locals.map Local.term).reverse new.length bs) new
        depth scope >>= fun r => pure (locals ++ r.1, r.2) := by
  induction bs generalizing new depth scope with
  | nil => simp [Term.instantiateBindings, compileBindings]
  | cons b bs ih =>
    obtain ⟨name, v⟩ := b
    have hrest : ∀ l : Local,
        compileBindings g bs (locals ++ new ++ [l]) (depth + 1) (bind scope l depth) =
          compileBindings g
            (Term.instantiateBindings (locals.map Local.term).reverse (new.length + 1) bs)
            (new ++ [l]) (depth + 1) (bind scope l depth) >>= fun r =>
              pure (locals ++ r.1, r.2) := by
      intro l
      rw [List.append_assoc, ih, List.length_append, List.length_singleton]
    rw [Term.instantiateBindings, compileBindings, compileBindings, instantiate_append]
    simp only [hrest, bind_assoc]

theorem compileBindings_append (xs ys : List (String × Term)) (locals : List Local) (depth : Nat)
    (scope : Scope) :
    compileBindings g (xs ++ ys) locals depth scope =
      compileBindings g xs locals depth scope >>= fun r =>
        compileBindings g ys r.1 (depth + xs.length) r.2 := by
  induction xs generalizing locals depth scope with
  | nil => simp [compileBindings]
  | cons x xs ih =>
    obtain ⟨name, v⟩ := x
    rw [List.cons_append, compileBindings, compileBindings, List.length_cons]
    simp only [ih, bind_assoc, Nat.add_assoc, Nat.add_comm 1]

/-- Every value that is bound has its local. -/
theorem length_of_compileBindings {bs : List (String × Term)} {locals : List Local} {depth : Nat}
    {scope : Scope} {s s' : State} {r : List Local × Scope}
    (h : compileBindings g bs locals depth scope s = .ok (r, s')) :
    r.1.length = locals.length + bs.length := by
  induction bs generalizing locals depth scope s with
  | nil =>
    rw [compileBindings] at h
    cases h
    rfl
  | cons b bs ih =>
    rw [compileBindings] at h
    obtain ⟨-, s₁, -, h⟩ := run_bind_eq_ok.mp h
    obtain ⟨l, s₂, -, h⟩ := run_bind_eq_ok.mp h
    rw [ih h, List.length_append, List.length_cons, List.length_cons]
    simp only [List.length_nil]
    omega

/-- Lets, one in the other, bind their values in order, as one let would, and are left together. -/
theorem continueLet_chain {body : Term} (hbody : ∀ bs b, body ≠ .letIn bs b)
    (groups : List (List (String × Term))) (locals : List Local) (count depth : Nat)
    (scope : Scope) :
    continueLet g (instantiate (groups.foldr .letIn body) locals) count depth scope =
      compileBindings g groups.flatten locals depth scope >>= fun r =>
        compileExpr g (instantiate body r.1) (depth + groups.flatten.length) r.2 >>= fun _ =>
          dropValues (count + groups.flatten.length) := by
  induction groups generalizing locals count depth scope with
  | nil =>
    have hopened : ∀ bs b, instantiate body locals ≠ .letIn bs b := by
      refine instantiateAt_ne_letIn (fun u hu => ?_) hbody 0
      obtain ⟨l, -, rfl⟩ := List.mem_map.mp (List.mem_reverse.mp hu)
      rintro _ _ ⟨⟩
    rw [List.foldr_nil, continueLet_of_ne hopened, List.flatten_nil, compileBindings, pure_bind]
    rfl
  | cons bs groups ih =>
    have hfirst := compileBindings_instantiate (g := g) bs locals [] depth scope
    rw [List.append_nil, List.length_nil] at hfirst
    rw [List.foldr_cons, instantiate, Term.instantiate, Term.instantiateAt, Nat.zero_add,
      continueLet, compileLet, Term.length_instantiateBindings, List.flatten_cons,
      compileBindings_append, hfirst]
    simp only [bind_assoc, pure_bind]
    refine bind_congr_of_ok fun s r s' hrun => ?_
    -- the body of the let has been opened under as many binders as there are new locals
    have hlen := length_of_compileBindings hrun
    rw [Term.length_instantiateBindings, List.length_nil, Nat.zero_add] at hlen
    rw [← hlen, instantiate_append, ih, List.length_append, hlen]
    simp only [Nat.add_assoc]

end Opening

/-- Lets compile alike whether they are nested or one, in any number of places outside quotations:
    into the same code, or into the same failure.  The code of a chain of lets is that of its
    bindings in order and of its body, and then one `DROP` of all it has bound. -/
theorem Opening.compileProcedure_letChains (g : Globals) (name : String) {t t' : Term}
    (ht : t.nodes < 2 ^ 30) (h : Relation.ReflTransGen Term.Merges t t') :
    compileProcedure g name t = compileProcedure g name t' ∧
      ∀ (groups : List (List (String × Term))) (body : Term) (depth : Nat) (scope : Scope),
        groups ≠ [] → (∀ bs b, body ≠ .letIn bs b) →
        compileExpr g (groups.foldr .letIn body) depth scope = (do
          let bound := groups.flatten.length
          let (locals, inner) ← compileBindings g groups.flatten [] depth scope
          compileExpr g (instantiate body locals) (depth + bound) inner
          dropValues bound) := by
  constructor
  · have hsmaller : t'.nodes ≤ t.nodes := by
      induction h with
      | refl => exact Nat.le_refl _
      | tail _ h ih => exact Nat.le_trans (Nat.le_of_lt (nodes_lt_of_merges h)) ih
    have hcounted : Codegen.compileProcedure g name t = Codegen.compileProcedure g name t' := by
      clear hsmaller
      induction h with
      | refl => rfl
      | tail _ h ih => exact ih.trans (compileProcedure_of_merges g name h)
    rw [compileProcedure_eq g name (by omega), compileProcedure_eq g name (by omega), hcounted]
  · intro groups body depth scope hne hbody
    have hchain := continueLet_chain (g := g) hbody groups [] 0 depth scope
    rw [instantiate, List.map_nil, Term.instantiate, List.reverse_nil, Term.instantiateAt_nil,
      Nat.zero_add] at hchain
    cases groups with
    | nil => exact absurd rfl hne
    | cons bs groups =>
      rw [List.foldr_cons, continueLet] at hchain
      rw [List.foldr_cons, compileExpr]
      exact hchain

/-- Two chains of lets, one of them in a value that the other binds. -/
def nestedLets : Term :=
  .lam "x" (.letIn [("a", .nat 1)]
    (.letIn [("b", .letIn [("c", .var 0)] (.letIn [("d", .var 1)] (.var 0)))]
      (.app (.const "pair" ⟨.cnstr, 0⟩) [.var 0, .var 1])))

/-- `nestedLets` with a single let for each chain. -/
def flatLets : Term :=
  .lam "x" (.letIn [("a", .nat 1), ("b", .letIn [("c", .var 0), ("d", .var 1)] (.var 0))]
    (.app (.const "pair" ⟨.cnstr, 0⟩) [.var 0, .var 1]))

theorem Opening.compileProcedure_nestedLets :
    Relation.ReflTransGen Term.Merges nestedLets flatLets ∧
      compileProcedure ⟨.empty, none⟩ "f" nestedLets
        = compileProcedure ⟨.empty, none⟩ "f" flatLets ∧
      compileProcedure ⟨.empty, none⟩ "f" nestedLets = .ok ⟨"f", 1,
        [.literal 1, .push 1, .push 1, .push 3, .drop 2, .push 2, .push 1, .cnstr 0 2, .drop 2,
          .ret]⟩ := by
  have hinner : (Term.letIn [("c", .var 0)] (.letIn [("d", .var 1)] (.var 0))).Merges
      (.letIn [("c", .var 0), ("d", .var 1)] (.var 0)) := .merge [("c", .var 0)] [("d", .var 1)] _
  have hmerges : Relation.ReflTransGen Term.Merges nestedLets flatLets :=
    .tail (.single (.lam "x" (.body _ (.value [] [] "b" hinner _))))
      (.lam "x" (.merge [("a", .nat 1)] _ _))
  refine ⟨hmerges, (compileProcedure_letChains _ "f" (by decide) hmerges).1, ?_⟩
  rw [compileProcedure_eq _ "f" (by decide)]
  exact Result.eq_ok_of_toOption (by decide +kernel)

end Codegen

end TermVM
