/-
  TermVM.Proofs.Store.Agreement

  Stores in memory and durable stores.

  A store in memory keeps procedures as they are, a durable one keeps arities
  and the bytes of code.  As long as every procedure that is stored has bytes,
  the database copies what the memory holds (`Copies`), call after call; the
  two answer differently at the first call that stores code without bytes, or
  asks for code that is not read back from its bytes.  For compiled code these
  are bounds on its size and on the terms that it quotes: `answers_eq_iff`.
-/
import TermVM.Proofs.Build.Transparency
import TermVM.Proofs.Code.Exactness
import TermVM.Proofs.Outline.Forms
import TermVM.Store

namespace TermVM

open Result

/-! ## Compiled code -/

namespace Instr

theorem tidy_plain {i : Instr} {m : Mnemonic} (hop : i.op = .named m) (hnum : m ≠ .num)
    (hnone : i.num = none) (habsent : i.expr = .absent) : i.Tidy where
  num := by
    rw [hnone, hop]
    exact iff_of_false Bool.false_ne_true fun h => hnum (Opcode.named.inj h)
  expr h := absurd habsent h

/-- Generated code is tidy, and its operations are in use. -/
theorem Generated.tidy {t : Term} {i : Instr} (h : i.Generated t) :
    i.Tidy ∧ ∃ m, i.op = .named m := by
  cases h with
  | literal hv => exact ⟨⟨iff_of_true rfl rfl, fun h => absurd rfl h⟩, .num, rfl⟩
  | quotation hq => exact ⟨⟨iff_of_false Bool.false_ne_true (by rintro ⟨⟩), fun _ => rfl⟩, .expr, rfl⟩
  | dispatch head start hcount =>
    rcases head.instr_cases with hinstr | ⟨m, a, n, hm, hinstr⟩
    · rw [hinstr]
      exact ⟨tidy_plain (m := .destruct) rfl (by decide) rfl rfl, .destruct, rfl⟩
    · rw [hinstr]
      refine ⟨tidy_plain (m := m) rfl ?_ rfl rfl, m, rfl⟩
      rintro rfl
      cases hm
  | invoke hm index =>
    refine ⟨tidy_plain rfl ?_ rfl rfl, _, rfl⟩
    rcases hm with rfl | rfl | rfl <;> decide
  | _ => exact ⟨tidy_plain rfl (by decide) rfl rfl, _, rfl⟩

/-- Generated code has a field count for every target, a jump apart. -/
theorem Generated.length_targets_le {t : Term} {i : Instr} (h : i.Generated t) {n : Nat}
    (hn : 1 ≤ n) (hfields : i.fields.length ≤ n) : i.targets.length ≤ n := by
  cases h with
  | jump target => exact hn
  | dispatch head start hcount =>
    rw [Outline.filled, List.length_map] at hfields
    exact Nat.le_trans (head.length_targets_filled_le _) hfields
  | _ => exact Nat.zero_le _

/-- An instruction of compiled code is read back from its bytes: a dispatch has at most 131072
    alternatives, a literal has a numeral that a length of 64 bits can measure, and a quoted term is
    at most fifteen nodes high and made of parts that nodes stand for. -/
structure Restorable (i : Instr) : Prop where
  fields : i.fields.length ≤ 131072
  number : ∀ v, i.num = some v → (utf8 (Text.decimal v)).length < UInt64.size
  term : i.op = .named .expr → i.expr.height ≤ 15 ∧ ∀ u ∈ i.expr.parts, u.isRegular = true ∧
    u.children.length ≤ 131072 ∧ ∀ s ∈ u.shell.texts, (utf8 s).length < UInt64.size

instance (i : Instr) : Decidable i.Restorable :=
  decidable_of_iff (i.fields.length ≤ 131072 ∧
      (∀ v ∈ i.num, (utf8 (Text.decimal v)).length < UInt64.size) ∧
      (i.op = .named .expr → i.expr.height ≤ 15 ∧ ∀ u ∈ i.expr.parts, u.isRegular = true ∧
        u.children.length ≤ 131072 ∧ ∀ s ∈ u.shell.texts, (utf8 s).length < UInt64.size))
    ⟨fun h => ⟨h.1, h.2.1, h.2.2⟩, fun h => ⟨h.fields, h.number, h.term⟩⟩

theorem Generated.writable_iff {t : Term} {i : Instr} (h : i.Generated t) :
    i.Writable .standard 30 ↔ i.Restorable := by
  obtain ⟨htidy, hnamed⟩ := h.tidy
  constructor
  · intro hw
    refine ⟨hw.fields, fun v hv => ?_, fun hop => ?_⟩
    · rcases hw.num with ⟨-, v', hv', hshort⟩ | ⟨-, hnone⟩
      · obtain rfl : v' = v := Option.some.inj (hv'.symm.trans hv)
        exact hshort
      · cases hnone.symm.trans hv
    · rcases hw.expr with ⟨-, hw⟩ | ⟨hne, -⟩
      · exact Term.writable_standard_iff.mp hw
      · exact absurd hop hne
  · intro hr
    refine ⟨hnamed, ?_, ?_, h.length_targets_le (by decide) hr.fields, hr.fields⟩
    · by_cases hop : i.op = .named .num
      · obtain ⟨v, hv⟩ := Option.isSome_iff_exists.mp (htidy.num.mpr hop)
        exact .inl ⟨hop, v, hv, hr.number v hv⟩
      · exact .inr ⟨hop, htidy.num_eq_none hop⟩
    · by_cases hop : i.op = .named .expr
      · exact .inl ⟨hop, Term.writable_standard_iff.mpr (hr.term hop)⟩
      · exact .inr ⟨hop, htidy.expr_eq_absent hop⟩

end Instr

/-- Compiled code is read back from its bytes: it has at most 131072 instructions, each of which
    is. -/
structure Code.Restorable (code : Code) : Prop where
  count : code.length ≤ 131072
  instr : ∀ i ∈ code, i.Restorable

instance (code : Code) : Decidable code.Restorable :=
  decidable_of_iff (code.length ≤ 131072 ∧ ∀ i ∈ code, i.Restorable)
    ⟨fun h => ⟨h.1, h.2⟩, fun h => ⟨h.count, h.instr⟩⟩

theorem Code.writable_iff_restorable {code : Code} (h : ∀ i ∈ code, ∃ t, Instr.Generated t i) :
    code.Writable .standard 30 ↔ code.Restorable := by
  have hinstr : ∀ i ∈ code, (i.Writable .standard 30 ↔ i.Restorable) := fun i hi => by
    obtain ⟨t, ht⟩ := h i hi
    exact ht.writable_iff
  constructor
  · exact fun hw => ⟨hw.count, fun i hi => (hinstr i hi).mp (hw.code i hi)⟩
  · exact fun hr => ⟨hr.count, fun i hi => (hinstr i hi).mpr (hr.instr i hi)⟩

/-! ## Calls -/

theorem Entries.get?_put {α : Type} (es : Entries α) (key : String) (a : α) (k : String) :
    (es.put key a).get? k = if key = k then some a else es.get? k := by
  unfold get?
  induction es with
  | nil => by_cases hk : key = k <;> simp [put, hk]
  | cons e es ih =>
    unfold put
    by_cases he : e.1 = key
    · subst he
      by_cases hk : e.1 = k <;> simp [hk]
    · by_cases hk : key = k
      · subst hk
        simpa [he] using ih
      · by_cases hek : e.1 = k <;> simp_all

namespace Store

/-- A call of a store. -/
inductive Call where
  | put (key : String) (p : Procedure)
  | get (key : String)

/-- What a caller learns from a call, but for the reason of a failure and for the name of a
    procedure, which the caller knows better. -/
inductive Answer where
  | failed
  | stored
  | missing
  | found (arity : UInt32) (code : Code)
  deriving DecidableEq

/-- Makes a call: the store after it, and the answer. -/
def make (st : Store) : Call → Store × Answer
  | .put key p =>
      match st.put none key p with
      | .ok st' => (st', .stored)
      | .error _ => (st, .failed)
  | .get key =>
      match st.get? none key with
      | .ok (some p) => (st, .found p.arity p.code)
      | .ok none => (st, .missing)
      | .error _ => (st, .failed)

/-- The answers to calls made one after another. -/
def answers (st : Store) : List Call → List Answer
  | [] => []
  | call :: calls => (st.make call).2 :: (st.make call).1.answers calls

variable {procedures : Entries Procedure} {db : Database}

theorem Database.check_eq_ok {during : Access} :
    db.check during none = .ok () ↔ db.isOpen = true := by
  rw [check]
  split <;> simp_all

theorem get?_durable (h : db.isOpen = true) (key : String) :
    (durable db).get? none key = match db.rows.get? key with
      | none => .ok none
      | some r => (r.toProcedure key).map some := by
  show (db.check .querying none >>= fun _ => _) = _
  rw [Database.check_eq_ok.mpr h, ok_bind]
  cases db.rows.get? key with
  | none => rfl
  | some r => cases r.toProcedure key <;> rfl

theorem put_durable {st : Store} {key : String} {p : Procedure} :
    (durable db).put none key p = .ok st ↔ db.isOpen = true ∧
      ∃ bytes, Code.encode? p.code = some bytes ∧
        st = durable (db.write key ⟨p.arity.toNat, bytes⟩) := by
  unfold Store.put
  cases hbytes : Code.encode? p.code with
  | none => simp
  | some bytes =>
    dsimp only
    rw [bind_eq_ok]
    constructor
    · rintro ⟨⟨⟩, hcheck, hst⟩
      exact ⟨Database.check_eq_ok.mp hcheck, bytes, rfl, (Except.ok.inj hst).symm⟩
    · rintro ⟨hopen, bytes', hbytes', rfl⟩
      cases hbytes'
      exact ⟨(), Database.check_eq_ok.mpr hopen, rfl⟩

/-- Code that is found after tidy code was stored is that code, or was there before. -/
theorem code_of_get?_put {st st' : Store} {key k : String} {p q : Procedure}
    (htidy : ∀ i ∈ p.code, i.Tidy) (hput : st.put none key p = .ok st')
    (hget : st'.get? none k = .ok (some q)) :
    q.code = p.code ∨ st.get? none k = .ok (some q) := by
  cases st with
  | memory procedures =>
    cases hput
    have hq : (procedures.put key p).get? k = some q := Except.ok.inj hget
    rw [Entries.get?_put] at hq
    split at hq
    · cases hq
      exact .inl rfl
    · exact .inr (congrArg Except.ok hq)
  | durable db =>
    obtain ⟨hopen, bytes, hbytes, rfl⟩ := put_durable.mp hput
    have hopen' : (db.write key ⟨p.arity.toNat, bytes⟩).isOpen = true := hopen
    rw [get?_durable hopen', Database.write, Entries.get?_put] at hget
    rw [get?_durable hopen]
    by_cases hk : key = k
    · -- the row holds the bytes of the code, and nothing else is read from them
      rw [if_pos hk] at hget
      obtain ⟨q', hrow, hq'⟩ := map_eq_ok.mp hget
      obtain rfl : q' = q := Option.some.inj hq'
      unfold Row.toProcedure at hrow
      split at hrow
      · split at hrow
        · next code hdecode =>
          cases hrow
          exact .inl ((Code.decode_encode? htidy hbytes).mp hdecode).2
        · cases hrow
      · cases hrow
    · rw [if_neg hk] at hget
      exact .inr hget

/-! ## Databases that copy the memory -/

/-- An open database holds, under the same keys, the arities and bytes of procedures in memory. -/
structure Copies (procedures : Entries Procedure) (db : Database) : Prop where
  isOpen : db.isOpen = true
  rows : ∀ key, (procedures.get? key = none ∧ db.rows.get? key = none) ∨
    ∃ p bytes, procedures.get? key = some p ∧ (∀ i ∈ p.code, i.Tidy) ∧
      Code.encode? p.code = some bytes ∧ db.rows.get? key = some ⟨p.arity.toNat, bytes⟩

theorem Copies.put (h : Copies procedures db) {key : String} {p : Procedure}
    (htidy : ∀ i ∈ p.code, i.Tidy) {bytes : Bytes} (hbytes : Code.encode? p.code = some bytes) :
    Copies (procedures.put key p) (db.write key ⟨p.arity.toNat, bytes⟩) where
  isOpen := h.isOpen
  rows k := by
    rw [Database.write, Entries.get?_put, Entries.get?_put]
    by_cases hk : key = k
    · rw [if_pos hk, if_pos hk]
      exact .inr ⟨p, bytes, rfl, htidy, hbytes, rfl⟩
    · rw [if_neg hk, if_neg hk]
      exact h.rows k

/-- Storing code that has bytes succeeds on both sides, and storing other code fails on one. -/
theorem Copies.make_put (h : Copies procedures db) (key : String) {p : Procedure}
    (htidy : ∀ i ∈ p.code, i.Tidy) :
    (∃ bytes, Code.encode? p.code = some bytes ∧
      (durable db).make (.put key p) = (durable (db.write key ⟨p.arity.toNat, bytes⟩), .stored) ∧
      Copies (procedures.put key p) (db.write key ⟨p.arity.toNat, bytes⟩)) ∨
    (Code.encode? p.code = none ∧ ((durable db).make (.put key p)).2 = .failed) := by
  cases hbytes : Code.encode? p.code with
  | none =>
    refine .inr ⟨rfl, ?_⟩
    simp [make, Store.put, hbytes]
  | some bytes =>
    refine .inl ⟨bytes, rfl, ?_, h.put htidy hbytes⟩
    rw [make, put_durable.mpr ⟨h.isOpen, bytes, hbytes, rfl⟩]

/-- What is found in memory is found in the database if it is read back, and asking for it fails
    there if not. -/
theorem Copies.make_get (h : Copies procedures db) (key : String) :
    ((memory procedures).make (.get key) = (memory procedures, .missing) ∧
      (durable db).make (.get key) = (durable db, .missing)) ∨
    ∃ p : Procedure, (memory procedures).make (.get key) = (memory procedures, .found p.arity p.code) ∧
      (p.code.Writable .standard 30 ∧
          (durable db).make (.get key) = (durable db, .found p.arity p.code) ∨
        ¬p.code.Writable .standard 30 ∧ (durable db).make (.get key) = (durable db, .failed)) := by
  have hget := get?_durable h.isOpen key
  rcases h.rows key with ⟨hnone, hnone'⟩ | ⟨p, bytes, hp, htidy, hbytes, hrow⟩
  · rw [hnone'] at hget
    refine .inl ⟨?_, ?_⟩
    · simp [make, Store.get?, hnone]
    · simp only [make, hget]
  · refine .inr ⟨p, by simp [make, Store.get?, hp], ?_⟩
    -- the arity of a row that was written is in range, so its bytes decide
    have hrange : (0 : Int) ≤ p.arity.toNat ∧ (p.arity.toNat : Int) < UInt32.size := by
      have hlt := p.arity.toNat_lt
      exact ⟨Int.natCast_nonneg _, by exact_mod_cast hlt⟩
    rw [hrow] at hget
    dsimp only at hget
    rw [Row.toProcedure, if_pos hrange] at hget
    dsimp only at hget
    by_cases hw : p.code.Writable .standard 30
    · rw [(Code.decode_encode? htidy hbytes).mpr ⟨hw, rfl⟩] at hget
      refine .inl ⟨hw, ?_⟩
      simp only [make, hget]
      simp [Except.map]
    · refine .inr ⟨hw, ?_⟩
      cases hdecode : Code.decode bytes with
      | ok code => exact absurd ((Code.decode_encode? htidy hbytes).mp hdecode).1 hw
      | error e =>
        rw [hdecode] at hget
        simp only [make, hget]
        simp [Except.map]

/-- Compiled procedures, and whatever else is tidy, have the same answers from a database that
    copies the memory exactly if all that is stored has bytes and all that is found is read back. -/
theorem Copies.answers_alike_iff {calls : List Call} (h : Copies procedures db)
    (htidy : ∀ key p, .put key p ∈ calls → ∀ i ∈ p.code, i.Tidy) :
    (durable db).answers calls = (memory procedures).answers calls ↔
      (∀ key p, .put key p ∈ calls → (Code.encode? p.code).isSome = true) ∧
      ∀ arity code, .found arity code ∈ (memory procedures).answers calls →
        code.Writable .standard 30 := by
  -- as long as the answers have been alike, the database copies the memory
  induction calls generalizing procedures db with
  | nil => simp [answers]
  | cons call calls ih =>
    have hrest : ∀ key p, .put key p ∈ calls → ∀ i ∈ p.code, i.Tidy :=
      fun key p hp => htidy key p (List.mem_cons_of_mem _ hp)
    cases call with
    | put key p =>
      have hmemory : (memory procedures).make (.put key p)
          = (memory (procedures.put key p), .stored) := rfl
      rcases h.make_put key (htidy key p List.mem_cons_self) with
        ⟨bytes, hbytes, hmake, hcopies⟩ | ⟨hnone, hfailed⟩
      · rw [answers, answers, hmake, hmemory, List.cons.injEq, ih hcopies hrest]
        simp [hbytes, or_imp, forall_and]
      · -- the database refuses what the memory stores
        rw [answers, answers, hfailed, hmemory]
        refine iff_of_false (by simp) fun hall => ?_
        have hsome := hall.1 key p List.mem_cons_self
        rw [hnone] at hsome
        cases hsome
    | get key =>
      rcases h.make_get key with ⟨hmemory, hmake⟩ | ⟨p, hmemory, ⟨hw, hmake⟩ | ⟨hw, hmake⟩⟩
      · rw [answers, answers, hmake, hmemory, List.cons.injEq, ih h hrest]
        simp
      · rw [answers, answers, hmake, hmemory, List.cons.injEq, ih h hrest]
        simp [hw, or_imp, forall_and]
      · -- the database has bytes that it cannot read
        rw [answers, answers, hmake, hmemory]
        refine iff_of_false (by simp) fun hall => hw ?_
        exact hall.2 p.arity p.code List.mem_cons_self

/-- What is found in memory was there before the calls or was stored by one of them. -/
theorem exists_of_found {calls : List Call} {arity : UInt32} {code : Code}
    (h : .found arity code ∈ (memory procedures).answers calls) :
    ∃ key p, p.code = code ∧ (procedures.get? key = some p ∨ .put key p ∈ calls) := by
  induction calls generalizing procedures with
  | nil => cases h
  | cons call calls ih =>
    cases call with
    | put key p =>
      have hlater : .found arity code ∈ (memory (procedures.put key p)).answers calls := by
        rcases List.mem_cons.mp h with hhead | hlater
        · cases hhead
        · exact hlater
      obtain ⟨k, q, hcode, hq | hq⟩ := ih hlater
      · rw [Entries.get?_put] at hq
        split at hq
        · cases hq
          exact ⟨key, p, hcode, .inr List.mem_cons_self⟩
        · exact ⟨k, q, hcode, .inl hq⟩
      · exact ⟨k, q, hcode, .inr (List.mem_cons_of_mem _ hq)⟩
    | get key =>
      cases hp : procedures.get? key with
      | none =>
        have hmake : (memory procedures).make (.get key) = (memory procedures, .missing) := by
          simp [make, Store.get?, hp]
        rw [answers, hmake] at h
        rcases List.mem_cons.mp h with hhead | hlater
        · cases hhead
        · obtain ⟨k, q, hcode, hq⟩ := ih hlater
          exact ⟨k, q, hcode, hq.imp_right (List.mem_cons_of_mem _)⟩
      | some p =>
        have hmake : (memory procedures).make (.get key)
            = (memory procedures, .found p.arity p.code) := by
          simp [make, Store.get?, hp]
        rw [answers, hmake] at h
        rcases List.mem_cons.mp h with hhead | hlater
        · cases hhead
          exact ⟨key, p, rfl, .inl hp⟩
        · obtain ⟨k, q, hcode, hq⟩ := ih hlater
          exact ⟨k, q, hcode, hq.imp_right (List.mem_cons_of_mem _)⟩

/-- A new database and a new store in memory answer calls that store compiled procedures alike
    exactly if no stored procedure quotes a term with an absent part, and all code that is found is
    read back from its bytes. -/
theorem answers_eq_iff {calls : List Call} (path : String)
    (hcompiled : ∀ key p, .put key p ∈ calls →
      ∃ g name t, Codegen.compileProcedure g name t = .ok p) :
    (durable ⟨path, [], true⟩).answers calls = inMemory.answers calls ↔
      (∀ key p, .put key p ∈ calls →
        ∀ i ∈ p.code, i.expr = .absent ∨ i.expr.isComplete = true) ∧
      ∀ arity code, .found arity code ∈ inMemory.answers calls → code.Restorable := by
  have hgenerated : ∀ key p, .put key p ∈ calls → ∀ i ∈ p.code, ∃ t, Instr.Generated t i := by
    intro key p hp i hi
    obtain ⟨g, name, t, hcompile⟩ := hcompiled key p hp
    exact ⟨t, Codegen.generated_of_compileProcedure hcompile hi⟩
  have htidy : ∀ key p, .put key p ∈ calls → ∀ i ∈ p.code, i.Tidy := by
    intro key p hp i hi
    obtain ⟨t, ht⟩ := hgenerated key p hp i hi
    exact ht.tidy.1
  have hnew : Copies [] ⟨path, [], true⟩ := ⟨rfl, fun key => .inl ⟨rfl, rfl⟩⟩
  have hfound : ∀ arity code, .found arity code ∈ inMemory.answers calls →
      (code.Writable .standard 30 ↔ code.Restorable) := by
    intro arity code hmem
    obtain ⟨key, p, rfl, hp | hp⟩ := exists_of_found hmem
    · cases hp
    · exact Code.writable_iff_restorable (hgenerated key p hp)
  -- both conditions of `answers_alike_iff` are bounds on what was compiled
  rw [inMemory, hnew.answers_alike_iff htidy]
  refine and_congr ?_ ?_
  · exact forall₃_congr fun key p _ => Code.isSome_encode?
  · exact forall₃_congr hfound

/-- Functions of one variable, one in the other. -/
def nested : Nat → Term
  | 0 => .var 0
  | n + 1 => .lam "x" (nested n)

/-- The procedure that gives a quoted term. -/
def quoting (t : Term) : Procedure :=
  ⟨"quoting", 0, [.quotation t, .ret]⟩

/-- The procedure that applies a quoted term to a number. -/
def feeding (t : Term) (v : Int) : Procedure :=
  ⟨"feeding", 0, [.literal v, .quotation t, .apply, .ret]⟩

/-- Calls that ask for a key before and after it is stored and replaced. -/
def replacement : List Call :=
  [.get "k", .put "k" (quoting (nested 14)), .get "k", .get "l",
    .put "k" (feeding (nested 14) (-1000000000000000000000000)), .get "k"]

theorem replacement_answers_eq :
    (∀ key p, .put key p ∈ replacement →
      ∃ g name t, Codegen.compileProcedure g name t = .ok p) ∧
    inMemory.answers replacement = [.missing, .stored, .found 0 (quoting (nested 14)).code,
      .missing, .stored, .found 0 (feeding (nested 14) (-1000000000000000000000000)).code] ∧
    (durable ⟨"cache.db", [], true⟩).answers replacement = inMemory.answers replacement := by
  have hcompiled : ∀ key p, .put key p ∈ replacement →
      ∃ g name t, Codegen.compileProcedure g name t = .ok p := by
    intro key p hp
    simp only [replacement, List.mem_cons, Call.put.injEq, reduceCtorEq, List.not_mem_nil,
      false_or, or_false] at hp
    rcases hp with ⟨-, rfl⟩ | ⟨-, rfl⟩
    · exact ⟨⟨.empty, none⟩, "quoting", .quote (nested 14), rfl⟩
    · exact ⟨⟨.empty, none⟩, "feeding",
        .app (.quote (nested 14)) [.nat (-1000000000000000000000000)], rfl⟩
  have hanswers : inMemory.answers replacement = [.missing, .stored,
      .found 0 (quoting (nested 14)).code, .missing, .stored,
      .found 0 (feeding (nested 14) (-1000000000000000000000000)).code] := by
    rfl
  refine ⟨hcompiled, hanswers, (answers_eq_iff "cache.db" hcompiled).mpr ⟨?_, ?_⟩⟩
  · intro key p hp
    simp only [replacement, List.mem_cons, Call.put.injEq, reduceCtorEq, List.not_mem_nil,
      false_or, or_false] at hp
    rcases hp with ⟨-, rfl⟩ | ⟨-, rfl⟩ <;> decide +kernel
  · intro arity code hfound
    rw [hanswers] at hfound
    simp only [List.mem_cons, Answer.found.injEq, reduceCtorEq, List.not_mem_nil,
      false_or, or_false] at hfound
    rcases hfound with ⟨-, rfl⟩ | ⟨-, rfl⟩ <;> decide +kernel

/-- A quoted term of sixteen nodes, one in the other, is stored in a database and not found again. -/
theorem quoting_nested_answers_ne :
    Codegen.compileProcedure ⟨.empty, none⟩ "quoting" (.quote (nested 15))
      = .ok (quoting (nested 15)) ∧
    inMemory.answers [.put "k" (quoting (nested 15)), .get "k"]
      = [.stored, .found 0 (quoting (nested 15)).code] ∧
    (durable ⟨"cache.db", [], true⟩).answers [.put "k" (quoting (nested 15)), .get "k"]
      = [.stored, .failed] :=
  ⟨rfl, rfl, by decide +kernel⟩

end Store

end TermVM
