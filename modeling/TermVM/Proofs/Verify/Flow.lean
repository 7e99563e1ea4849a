/-
  TermVM.Proofs.Verify.Flow

  Control flow of code on stack depths, said without a work list.

  A point of the transition system is a position with a stack depth.  `exits`
  gives the points an instruction passes control to, `Admits` says what it
  requires of the depth it is entered with; the two are kept apart, so that a
  path may run through points that no check has looked at.  `Disciplined` is
  the property that verification decides: every reachable point lies inside
  the code and passes its check, and no position is reached with two depths.

  `edges_eq_ok_iff` ties the two halves to the verifier's rule for one
  instruction.
-/
import Mathlib.Logic.Relation
import TermVM.Proofs.Result
import TermVM.Verify

namespace TermVM.Verify

/-! ## The transition system -/

/-- The operations that branch through their targets. -/
def dispatches : Opcode → Bool
  | .named .cases2 | .named .casesN | .named .natCases | .named .builtinCases => true
  | _ => false

/-- The operations that send control nowhere but to the next instruction. -/
def sequential : Opcode → Bool
  | .named .push | .named .drop | .named .scnstr | .named .cnstr | .named .num | .named .expr
  | .named .proj | .named .unreachable | .named .apply | .named .invokeGlobal
  | .named .invokeBuiltin | .named .invokeNative | .named .closure => true
  | _ => false

/-- The change that an instruction makes to the depth when control goes on behind it; an
    instruction that sends control elsewhere has none. -/
def change (table : DeclTable) (i : Instr) : Option Int :=
  match i.op with
  | .named .push | .named .scnstr | .named .num | .named .expr => some 1
  | .named .drop => some (-i.a.toNat)
  | .named .cnstr | .named .closure => some (1 - i.b.toNat)
  | .named .proj => some 0
  | .named .apply => some (-1)
  | .named .destruct => i.fields.head?.map fun f => f.toNat - 1
  | .named .invokeGlobal | .named .invokeBuiltin | .named .invokeNative =>
      (table.at? i.a).map fun d => 1 - d.arity.toNat
  | _ => none

/-- The points that control goes to from an instruction entered at `e`. -/
def exits (table : DeclTable) (e : Edge) (i : Instr) : List Edge :=
  if i.op = .named .goto then
    i.targets.head?.toList.map fun t => ⟨t.toNat, e.depth⟩
  else if dispatches i.op then
    (i.targets.zip i.fields).map fun tf => ⟨tf.1.toNat, e.depth - 1 + tf.2.toNat⟩
  else
    (change table i).toList.map fun c => ⟨e.pc + 1, e.depth + c⟩

/-- One step of control. -/
def Flow (table : DeclTable) (code : Code) (e e' : Edge) : Prop :=
  ∃ i, code[e.pc]? = some i ∧ e' ∈ exits table e i

/-- Control starts at the first instruction with the arguments on the stack. -/
def entry (p : Procedure) : Edge :=
  ⟨0, p.arity.toNat⟩

/-- The points that control can arrive at. -/
def Reaches (table : DeclTable) (p : Procedure) (e : Edge) : Prop :=
  Relation.ReflTransGen (Flow table p.code) (entry p) e

/-! ## The checks -/

/-- A call names a declaration of the kind the operation calls, and finds its arguments. -/
def Calls (table : DeclTable) (m : Mnemonic) (depth : Int) (i : Instr) : Prop :=
  ∃ d, table.at? i.a = some d ∧ d.kind = callee m ∧ (d.arity.toNat : Int) ≤ depth

/-- What an instruction requires of the depth it is entered with, and of its operands. -/
def Admits (table : DeclTable) (arity : UInt32) (size : Nat) (e : Edge) (i : Instr) : Prop :=
  match i.op with
  | .named .push => (i.a.toNat : Int) < e.depth
  | .named .drop => (i.a.toNat : Int) + 1 ≤ e.depth
  | .named .scnstr | .named .num | .named .expr | .named .unreachable => True
  | .named .cnstr => (i.b.toNat : Int) ≤ e.depth
  | .named .proj | .named .destruct => 1 ≤ e.depth
  | .named .apply => 2 ≤ e.depth
  | .named .goto => ∀ t ∈ i.targets.head?, t.toNat < size
  | .named .cases2 | .named .casesN | .named .natCases | .named .builtinCases =>
      1 ≤ e.depth ∧ i.fields.length = i.targets.length
        ∧ ∀ t ∈ i.targets, e.pc < t.toNat ∧ t.toNat < size
  | .named .invokeGlobal => Calls table .invokeGlobal e.depth i
  | .named .invokeBuiltin => Calls table .invokeBuiltin e.depth i
  | .named .invokeNative => Calls table .invokeNative e.depth i
  | .named .closure =>
      ∃ d, table.at? i.a = some d ∧ i.b < d.arity ∧ (i.b.toNat : Int) ≤ e.depth
  | .named .ret => e.depth = arity.toNat + 1
  | .undefined .. => False

/-- An instruction has the operands that its operation reads unasked: a jump has a target, and a
    destructuring has a field count. -/
def Furnished (i : Instr) : Prop :=
  (i.op = .named .goto → i.targets ≠ []) ∧ (i.op = .named .destruct → i.fields ≠ [])

instance (i : Instr) : Decidable (Furnished i) :=
  inferInstanceAs (Decidable (_ ∧ _))

theorem furnished_of_sequential {i : Instr} (h : sequential i.op = true) : Furnished i := by
  constructor <;>
  · intro hop
    rw [hop] at h
    cases h

/-- The stack discipline: every point that control can arrive at lies inside the code and passes
    the check of its instruction, and no position is reached with two different depths. -/
structure Disciplined (table : DeclTable) (p : Procedure) : Prop where
  admits : ∀ e, Reaches table p e →
    ∃ i, p.code[e.pc]? = some i ∧ Admits table p.arity p.code.length e i
  agree : ∀ pc d d', Reaches table p ⟨pc, d⟩ → Reaches table p ⟨pc, d'⟩ → d = d'

/-! ## One instruction -/

theorem exits_of_sequential {table : DeclTable} {e : Edge} {i : Instr}
    (h : sequential i.op = true) :
    exits table e i = (change table i).toList.map fun c => ⟨e.pc + 1, e.depth + c⟩ := by
  unfold sequential at h
  split at h
  case h_14 => cases h
  all_goals
    rename_i hop
    simp [exits, hop, dispatches]

/-- The edges of a dispatch are one per target and field count, all targets lying ahead and
    inside the code. -/
theorem dispatchEdges_eq_ok_iff {size pc : Nat} {d : Int} {ts fs : List UInt32} {es : List Edge}
    (hlen : fs.length = ts.length) :
    dispatchEdges size pc d ts fs = .ok es ↔
      (∀ t ∈ ts, pc < t.toNat ∧ t.toNat < size) ∧
        es = (ts.zip fs).map fun tf => ⟨tf.1.toNat, d - 1 + tf.2.toNat⟩ := by
  induction ts generalizing fs es with
  | nil => simp [dispatchEdges, eq_comm]
  | cons t ts ih =>
    obtain ⟨f, fs, rfl⟩ : ∃ f fs', fs = f :: fs' := List.exists_cons_of_length_eq_add_one hlen
    have hlen' : fs.length = ts.length := by simpa using hlen
    rw [dispatchEdges, List.forall_mem_cons]
    by_cases hbad : t.toNat ≤ pc ∨ size ≤ t.toNat
    · have hnot : ¬(pc < t.toNat ∧ t.toNat < size) := by omega
      simp [hbad, hnot]
    · have hgood : pc < t.toNat ∧ t.toNat < size := by omega
      rw [if_neg hbad]
      show (dispatchEdges size pc d ts fs >>= fun rest => Except.ok (_ :: rest)) = .ok es ↔ _
      rw [Result.bind_eq_ok]
      constructor
      · rintro ⟨rest, hrest, hes⟩
        obtain ⟨hall, rfl⟩ := (ih hlen').mp hrest
        injection hes with hes
        exact ⟨⟨hgood, hall⟩, by simp [← hes]⟩
      · rintro ⟨⟨-, hall⟩, rfl⟩
        exact ⟨_, (ih hlen').mpr ⟨hall, rfl⟩, by simp⟩

/-- A rule with one requirement. -/
theorem guard_eq_ok_iff {c : Prop} [Decidable c] {q : Problem} {es es' : List Edge} :
    (if c then .error (.problem q) else .ok es' : Except Stop (List Edge)) = .ok es ↔
      ¬c ∧ es = es' := by
  by_cases hc : c <;> simp [hc, eq_comm]

/-- The rule of a dispatch: its check, and one point per alternative. -/
theorem dispatch_eq_ok_iff {size pc : Nat} {depth : Int} {i : Instr} {es : List Edge} :
    (if depth < 1 then .error (.problem .emptyStack)
      else if i.fields.length ≠ i.targets.length then
        .error (.problem (.fieldCounts i.targets.length i.fields.length))
      else (dispatchEdges size pc depth i.targets i.fields).mapError .problem
        : Except Stop (List Edge)) = .ok es ↔
      (1 ≤ depth ∧ i.fields.length = i.targets.length
        ∧ ∀ t ∈ i.targets, pc < t.toNat ∧ t.toNat < size) ∧
        es = (i.targets.zip i.fields).map fun tf => ⟨tf.1.toNat, depth - 1 + tf.2.toNat⟩ := by
  by_cases hdepth : depth < 1
  · have hnot : ¬1 ≤ depth := by omega
    simp [hdepth, hnot]
  · have hle : 1 ≤ depth := by omega
    by_cases hlen : i.fields.length = i.targets.length
    · rw [if_neg hdepth, if_neg (not_not_intro hlen)]
      simp only [hle, hlen, true_and]
      rw [← dispatchEdges_eq_ok_iff hlen]
      cases dispatchEdges size pc depth i.targets i.fields with
      | error q => exact ⟨nofun, nofun⟩
      | ok es' =>
        show (Except.ok es' : Except Stop (List Edge)) = .ok es ↔ _
        simp only [Except.ok.injEq]
    · simp [hdepth, hlen]

/-- The rule of a call: its check, and the one point behind it. -/
theorem invoke_eq_ok_iff {table : DeclTable} {pc : Nat} {depth : Int} {i : Instr} {m : Mnemonic}
    {es : List Edge} :
    edges.invoke table depth i m (fun d => .ok [⟨pc + 1, d⟩]) (fun q => .error (.problem q))
        = .ok es ↔
      Calls table m depth i ∧
        es = ((table.at? i.a).map fun d => (1 - d.arity.toNat : Int)).toList.map
          fun c => ⟨pc + 1, depth + c⟩ := by
  unfold edges.invoke Calls
  cases hd : table.at? i.a with
  | none => simp
  | some d =>
    by_cases hkind : d.kind = callee m
    · by_cases hdepth : depth < d.arity.toNat
      · have hnot : ¬(d.arity.toNat : Int) ≤ depth := by omega
        simp [hkind, hdepth, hnot]
      · have hle : (d.arity.toNat : Int) ≤ depth := by omega
        have hadd : depth - d.arity.toNat + 1 = depth + (1 - d.arity.toNat) := by omega
        simp [hkind, hdepth, hle, hadd, eq_comm]
    · simp [hkind]

/-- The verifier's rule for one instruction is its check together with its exits. -/
theorem edges_eq_ok_iff {table : DeclTable} {arity : UInt32} {size : Nat} {e : Edge} {i : Instr}
    {es : List Edge} (hf : Furnished i) :
    edges table arity size e.pc e.depth i = .ok es ↔
      Admits table arity size e i ∧ es = exits table e i := by
  unfold Furnished at hf
  unfold edges Admits exits change
  cases hop : i.op with
  | undefined code h => simp
  | named m =>
    cases m with
    | invokeGlobal => simpa [dispatches] using invoke_eq_ok_iff
    | invokeBuiltin => simpa [dispatches] using invoke_eq_ok_iff
    | invokeNative => simpa [dispatches] using invoke_eq_ok_iff
    | goto =>
      obtain ⟨t, ts, hts⟩ := List.exists_cons_of_ne_nil (hf.1 hop)
      by_cases hin : size ≤ t.toNat
      · have hnot : ¬t.toNat < size := Nat.not_lt.mpr hin
        simp [hts, hin, hnot]
      · have hlt : t.toNat < size := Nat.lt_of_not_le hin
        simp [hts, hin, hlt, eq_comm]
    | destruct =>
      obtain ⟨f, fs, hfs⟩ := List.exists_cons_of_ne_nil (hf.2 hop)
      have hadd : e.depth - 1 + f.toNat = e.depth + (f.toNat - 1) := by omega
      simp [hfs, hadd, dispatches, guard_eq_ok_iff]
    | cases2 | casesN | natCases | builtinCases => simpa [dispatches] using dispatch_eq_ok_iff
    | closure =>
      cases hd : table.at? i.a with
      | none => simp
      | some d =>
        have hadd : e.depth - i.b.toNat + 1 = e.depth + (1 - i.b.toNat) := by omega
        by_cases harity : d.arity ≤ i.b
        · simp [harity, UInt32.not_lt.mpr harity]
        · simp [harity, UInt32.not_le.mp harity, hadd, dispatches, guard_eq_ok_iff]
    | push => simp [dispatches, guard_eq_ok_iff]
    | drop => simp [dispatches, guard_eq_ok_iff, Int.sub_eq_add_neg]
    | scnstr | num | expr => simp [dispatches, eq_comm]
    | cnstr =>
      have hadd : e.depth - i.b.toNat + 1 = e.depth + (1 - i.b.toNat) := by omega
      simp [hadd, dispatches, guard_eq_ok_iff]
    | proj => simp [dispatches, guard_eq_ok_iff]
    | apply =>
      by_cases hless : e.depth < 2
      · have hnot : ¬2 ≤ e.depth := by omega
        simp [hless, hnot]
      · have htwo : 2 ≤ e.depth := by omega
        simp [hless, htwo, dispatches, Int.sub_eq_add_neg, eq_comm]
    | unreachable => simp [dispatches, eq_comm]
    | ret => by_cases hret : e.depth = arity.toNat + 1 <;> simp [hret, dispatches, eq_comm]

/-- An instruction has no more exits than the verifier counts for it. -/
theorem length_exits_le (table : DeclTable) (e : Edge) (i : Instr) :
    (exits table e i).length ≤ edgeCount i := by
  unfold exits change edgeCount
  cases i.op with
  | undefined code h => simp [dispatches]
  | named m =>
    cases m <;> simp [dispatches, Option.length_toList] <;> grind

end TermVM.Verify
