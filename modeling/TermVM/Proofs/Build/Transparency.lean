/-
  TermVM.Proofs.Build.Transparency

  A store in memory makes no difference to what is compiled.

  Every procedure in the store was generated for a term whose key it stands
  under.  Terms whose keys are digests of the same bytes have the same code if
  they quote nothing, so what a body finds in the store is what would have been
  generated for it (`generate_of_justified`).  Every turn of every body keeps
  this, in whatever order turns are taken and whether or not the batch succeeds
  in the end; so it holds along a session, and each of its batches ends as it
  would without a store (`visible_session`).

  Digests stand for bytes here, so the hash function must not map two of the
  byte strings that are hashed to one digest.
-/
import TermVM.Proofs.Build.Schedule
import TermVM.Proofs.Fingerprint.Quotation

open TermVM.Result Relation

namespace TermVM

/-! ## Entries -/

namespace Entries

variable {α : Type} {es : Entries α} {key : String} {a : α}

theorem mem_of_get? (h : es.get? key = some a) : (key, a) ∈ es := by
  obtain ⟨e, hfind, rfl⟩ := Option.map_eq_some_iff.mp h
  have hkey : e.1 = key := by simpa using List.find?_some hfind
  rw [← hkey]
  exact List.mem_of_find?_eq_some hfind

theorem mem_put {e : String × α} (h : e ∈ es.put key a) : e = (key, a) ∨ e ∈ es := by
  induction es with
  | nil => exact .inl (List.mem_singleton.mp h)
  | cons e' es ih =>
    unfold put at h
    split at h
    · exact (List.mem_cons.mp h).imp_right (List.mem_cons_of_mem e')
    · rcases List.mem_cons.mp h with rfl | h
      · exact .inr List.mem_cons_self
      · exact (ih h).imp_right (List.mem_cons_of_mem e')

end Entries

namespace Build

open Codegen Fingerprint

/-! ## Keys -/

/-- A term whose code can be shared under its key: no part of it is absent, it quotes nothing, and
    its texts and lists are shorter than 2^32. -/
structure Cacheable (t : Term) : Prop where
  complete : t.isComplete = true
  unquoted : t.quotations = []
  measured : measured t = true

instance : DecidablePred Cacheable := fun t =>
  decidable_of_iff (t.isComplete = true ∧ t.quotations = [] ∧ Fingerprint.measured t = true)
    ⟨fun ⟨hcomplete, hunquoted, hmeasured⟩ => ⟨hcomplete, hunquoted, hmeasured⟩,
      fun h => ⟨h.complete, h.unquoted, h.measured⟩⟩

/-- No two of the byte strings have the same digest. -/
def Collisionless (hashed : List Bytes) : Prop :=
  ∀ bs ∈ hashed, ∀ cs ∈ hashed, Sha256.digest bs = Sha256.digest cs → bs = cs

instance (hashed : List Bytes) : Decidable (Collisionless hashed) :=
  inferInstanceAs (Decidable (∀ bs ∈ hashed, ∀ cs ∈ hashed,
    Sha256.digest bs = Sha256.digest cs → bs = cs))

theorem Collisionless.mono {hashed hashed' : List Bytes} (h : Collisionless hashed)
    (hsub : hashed' ⊆ hashed) : Collisionless hashed' :=
  fun bs hbs cs hcs => h bs (hsub hbs) cs (hsub hcs)

section

variable {s : Settings} {table : DeclTable} {d : Declaration} {key : String}

theorem bodyKey_eq_ok : bodyKey s table d = .ok key ↔
    ∃ bytes, keyBytes? d.value table s.analyzers = some bytes ∧
      Text.hex (Sha256.digest bytes) = key := by
  unfold bodyKey key?
  cases keyBytes? d.value table s.analyzers <;> simp

theorem Cacheable.bodyKey_ne_error (h : Cacheable d.value) (e : Failure) :
    bodyKey s table d ≠ .error e := by
  have hsome := h.complete
  rw [← isSome_keyBytes? d.value table s.analyzers, Option.isSome_iff_exists] at hsome
  obtain ⟨bytes, hbytes⟩ := hsome
  rw [bodyKey_eq_ok.mpr ⟨bytes, hbytes, rfl⟩]
  exact fun h => nomatch h

end

/-! ## Stored procedures -/

/-- A procedure was generated for a term that has the given key and whose bytes were hashed. -/
def Justified (hashed : List Bytes) (key : String) (p : Procedure) : Prop :=
  ∃ (g : Globals) (t : Term) (name : String) (bytes : Bytes), Cacheable t ∧ bytes ∈ hashed ∧
    keyBytes? t g.table g.analyzers = some bytes ∧ Text.hex (Sha256.digest bytes) = key ∧
    compileProcedure g name t = .ok p

/-- A store in memory with nothing but justified procedures. -/
def Sound (hashed : List Bytes) (store : Store) : Prop :=
  ∃ entries : Entries Procedure, store = .memory entries ∧
    ∀ e ∈ entries, Justified hashed e.1 e.2

section

variable {s : Settings} {table : DeclTable} {d : Declaration} {key : String} {p : Procedure}
  {hashed : List Bytes} {store : Store}

theorem sound_inMemory (hashed : List Bytes) : Sound hashed .inMemory :=
  ⟨[], rfl, by simp⟩

theorem Sound.fetch_ne_error (h : Sound hashed store) (e : Failure) :
    fetch store key d ≠ .error e := by
  obtain ⟨entries, rfl, -⟩ := h
  exact fun h => nomatch h

theorem Sound.justified_of_fetch (h : Sound hashed store) (hp : fetch store key d = .ok (some p)) :
    ∃ q, Justified hashed key q ∧ p = { q with name := d.name } := by
  obtain ⟨entries, rfl, hentries⟩ := h
  have hmap : (entries.get? key).map (fun q => { q with name := d.name }) = some p :=
    Except.ok.inj hp
  obtain ⟨q, hq, rfl⟩ := Option.map_eq_some_iff.mp hmap
  exact ⟨q, hentries _ (Entries.mem_of_get? hq), rfl⟩

theorem Sound.keep_ne_error (h : Sound hashed store) (e : Failure) :
    keep store key d p ≠ .error e := by
  obtain ⟨entries, rfl, -⟩ := h
  exact fun h => nomatch h

theorem Sound.keep {store' : Store} (h : Sound hashed store) (hp : Justified hashed key p)
    (hkeep : keep store key d p = .ok store') : Sound hashed store' := by
  obtain ⟨entries, rfl, hentries⟩ := h
  obtain rfl : Store.memory (entries.put key p) = store' := Except.ok.inj hkeep
  refine ⟨_, rfl, fun e he => ?_⟩
  rcases Entries.mem_put he with rfl | he
  · exact hp
  · exact hentries e he

/-- Code generated from a term that quotes nothing carries no term. -/
theorem Cacheable.isRigid_exprs {g : Globals} {t : Term} {name : String} (h : Cacheable t)
    (hp : compileProcedure g name t = .ok p) : ∀ i ∈ p.code, i.expr.isRigid = true := by
  intro i hi
  rcases expr_of_compileProcedure hp hi with habsent | hmem
  · rw [habsent]
    rfl
  · rw [h.unquoted] at hmem
    cases hmem

/-- A justified procedure is what would be generated for any body with its key. -/
theorem generate_of_justified (hhashed : Collisionless hashed) (hd : Cacheable d.value)
    (hmem : ∀ bytes, keyBytes? d.value table s.analyzers = some bytes → bytes ∈ hashed)
    (hkey : bodyKey s table d = .ok key) (hp : Justified hashed key p) :
    generate s table d = .ok { p with name := d.name } := by
  obtain ⟨g, t, name, bytes', ht, hbytes', hkey', hdigest', hcompile⟩ := hp
  obtain ⟨bytes, hbytes, hdigest⟩ := bodyKey_eq_ok.mp hkey
  -- equal keys are equal digests, and those stand for equal bytes
  have hsame : bytes' = bytes :=
    hhashed _ hbytes' _ (hmem bytes hbytes) (Text.hex_injective (hdigest'.trans hdigest.symm))
  subst hsame
  obtain ⟨hnormal, hagree⟩ :=
    @agree_of_keyBytes g ⟨table, s.analyzers⟩ t d.value _ ht.measured hd.measured hkey' hbytes
  obtain ⟨q, hq, harity, hcode⟩ :=
    exists_compileProcedure_of_normal_eq hnormal hagree hcompile d.name
  have hname : q.name = d.name := by
    obtain ⟨drawing, -, rfl⟩ := compileProcedure_eq_ok_iff.mp hq
    rfl
  have hcode : q.code = p.code := code_eq_of_normal_eq hcode (ht.isRigid_exprs hcompile)
  rw [generate_eq_ok, hq, ← hname, ← harity, ← hcode]

end

/-! ## What a turn keeps -/

/-- The code of a body, without whether it was found. -/
def Body.codes (b : Body) : Procedure × Procedure :=
  (b.generated, b.final)

/-- A body has come to where it would have come by itself. -/
def Stage.Faithful (s : Settings) (table : DeclTable) (task : Task) : Stage → Prop
  | waiting | skipped => True
  | missed key => bodyKey s table task.1 = .ok key
  | generated key p => bodyKey s table task.1 = .ok key ∧ generate s table task.1 = .ok p
  | ready p _ => generate s table task.1 = .ok p
  | ended r =>
      r.toOption.map Body.codes = (bodyAlone s table task.1 task.2).toOption.map Body.codes

/-- The store is sound, and all bodies are faithful. -/
structure Situation.Faithful (s : Settings) (table : DeclTable) (hashed : List Bytes)
    (x : Situation) : Prop where
  store_sound : Sound hashed x.store
  bodies_cacheable : ∀ b ∈ x.bodies, Cacheable b.1.1.value
  bodies_faithful : ∀ b ∈ x.bodies, b.2.Faithful s table b.1

section

variable {s : Settings} {table : DeclTable} {hashed : List Bytes}

/-- Whether its code was found makes no difference to how a body is finished. -/
theorem codes_finish (d : Declaration) (arity : UInt32) (p : Procedure) (hit hit' : Bool) :
    (finish s table d arity p hit).toOption.map Body.codes
      = (finish s table d arity p hit').toOption.map Body.codes := by
  rw [finish_eq, finish_eq]
  split
  · rfl
  · cases s.check table (s.optimized table p) <;> rfl

/-- A turn keeps the store sound and its body faithful. -/
theorem Turn.faithful {task : Task} {store store' : Store} {stage stage' : Stage}
    (h : Turn s table task store stage store' stage') (hhashed : Collisionless hashed)
    (htask : Cacheable task.1.value)
    (hmem : ∀ bytes, keyBytes? task.1.value table s.analyzers = some bytes → bytes ∈ hashed)
    (hstore : Sound hashed store) (hstage : stage.Faithful s table task) :
    Sound hashed store' ∧ stage'.Faithful s table task := by
  cases h with
  | unkeyed h => exact absurd h (htask.bodyKey_ne_error _)
  | unread hkey h => exact absurd h (hstore.fetch_ne_error _)
  | hit hkey h =>
    -- the one place where code comes from elsewhere: it is what would have been generated
    obtain ⟨q, hq, rfl⟩ := hstore.justified_of_fetch h
    exact ⟨hstore, generate_of_justified hhashed htask hmem hkey hq⟩
  | miss hkey h => exact ⟨hstore, hkey⟩
  | @ungenerated _ e h =>
    have halone : bodyAlone s table task.1 task.2 = .error e := by
      rw [bodyAlone, h, error_bind]
    refine ⟨hstore, ?_⟩
    simp only [Stage.Faithful, halone]
  | generated h => exact ⟨hstore, hstage, h⟩
  | unkept h => exact absurd h (hstore.keep_ne_error _)
  | @kept _ key p h =>
    -- another body may have stored code under this key meanwhile; either is justified
    obtain ⟨hkey, hgenerate⟩ := hstage
    obtain ⟨bytes, hbytes, hdigest⟩ := bodyKey_eq_ok.mp hkey
    have hp : Justified hashed key p := ⟨⟨table, s.analyzers⟩, task.1.value, task.1.name, bytes,
      htask, hmem bytes hbytes, hbytes, hdigest, generate_eq_ok.mp hgenerate⟩
    exact ⟨hstore.keep hp h, hgenerate⟩
  | @finished p hit =>
    have hgenerate : generate s table task.1 = .ok p := hstage
    have halone : bodyAlone s table task.1 task.2 = finish s table task.1 task.2 p false := by
      rw [bodyAlone, hgenerate, ok_bind]
    refine ⟨hstore, ?_⟩
    simp only [Stage.Faithful, halone]
    exact codes_finish task.1 task.2 p hit false

/-- A step keeps the store sound and all bodies faithful. -/
theorem Step.faithful {x y : Situation} (h : Step s table x y) (hhashed : Collisionless hashed)
    (hsub : y.hashed s table ⊆ hashed) (hx : x.Faithful s table hashed) :
    y.Faithful s table hashed := by
  obtain ⟨hstore, hcacheable, hfaithful⟩ := hx
  cases h with
  | @turn before after task stage stage' store store' h =>
    rw [List.forall_mem_append, List.forall_mem_cons] at hcacheable hfaithful
    obtain ⟨hbefore, htask, hafter⟩ := hcacheable
    obtain ⟨hbefore', htask', hafter'⟩ := hfaithful
    have hmem : ∀ bytes, keyBytes? task.1.value table s.analyzers = some bytes →
        bytes ∈ hashed := fun bytes hbytes =>
      hsub (mem_hashed (List.mem_append_right before List.mem_cons_self) h.begun hbytes)
    obtain ⟨hstore', hstage'⟩ := h.faithful hhashed htask hmem hstore htask'
    exact ⟨hstore',
      List.forall_mem_append.mpr ⟨hbefore, List.forall_mem_cons.mpr ⟨htask, hafter⟩⟩,
      List.forall_mem_append.mpr ⟨hbefore', List.forall_mem_cons.mpr ⟨hstage', hafter'⟩⟩⟩
  | skip h =>
    rw [List.forall_mem_append, List.forall_mem_cons] at hcacheable hfaithful
    exact ⟨hstore,
      List.forall_mem_append.mpr ⟨hcacheable.1, List.forall_mem_cons.mpr hcacheable.2⟩,
      List.forall_mem_append.mpr ⟨hfaithful.1,
        List.forall_mem_cons.mpr ⟨trivial, hfaithful.2.2⟩⟩⟩

theorem faithful_of_steps {x y : Situation} (h : ReflTransGen (Step s table) x y)
    (hhashed : Collisionless hashed) (hsub : y.hashed s table ⊆ hashed)
    (hx : x.Faithful s table hashed) : y.Faithful s table hashed := by
  induction h with
  | refl => exact hx
  | tail _ hstep ih =>
    -- what is hashed only grows, so the bound at the end holds on the way
    exact hstep.faithful hhashed hsub (ih (List.Subset.trans hstep.hashed_subset hsub))

end

/-! ## Batches -/

/-- What a caller sees of a batch that succeeded: the table and the procedures. -/
def visible (outcome : Except Failure Outcome) : Option (DeclTable × List Procedure) :=
  outcome.toOption.map fun o => (o.table, o.procedures)

section

variable {s : Settings} {table reserved : DeclTable} {hashed : List Bytes}

theorem trace_congr {bodies bodies' : List Body}
    (h : bodies.map Body.codes = bodies'.map Body.codes) :
    trace s table bodies = trace s table bodies' := by
  induction bodies generalizing bodies' with
  | nil => rw [List.map_eq_nil_iff.mp h.symm]
  | cons b bodies ih =>
    obtain ⟨b', bodies', rfl, hb, hbodies⟩ := List.map_eq_cons_iff.mp h.symm
    obtain ⟨hgenerated, hfinal⟩ := Prod.mk.inj hb
    rw [trace, trace, hgenerated, hfinal, ih hbodies.symm]

theorem visible_install {bodies bodies' : List Body}
    (h : bodies.map (·.final) = bodies'.map (·.final)) :
    visible (install reserved bodies) = visible (install reserved bodies') := by
  unfold install
  rw [h]
  dsimp only
  cases reserved.install (bodies'.map (·.final)) <;> rfl

/-- A batch ends by the code of its bodies alone. -/
theorem visible_conclude {bodies bodies' : List Body}
    (h : bodies.map Body.codes = bodies'.map Body.codes) :
    visible (conclude s reserved bodies) = visible (conclude s reserved bodies') := by
  have hfinal : bodies.map (·.final) = bodies'.map (·.final) := by
    simpa [Function.comp_def, Body.codes] using congrArg (List.map Prod.snd) h
  unfold conclude
  rw [trace_congr h]
  cases (trace s reserved bodies').2 with
  | error e => rfl
  | ok u => exact visible_install hfinal

/-- Bodies that all have been compiled faithfully are the bodies compiled without a store. -/
theorem exists_alone {xs : List (Task × Stage)} {bodies : List Body}
    (h : ∀ b ∈ xs, b.2.Faithful s table b.1)
    (hbodies : xs.map (·.2) = bodies.map fun b => .ended (.ok b)) :
    ∃ alone, List.Forall₂ (fun task b => bodyAlone s table task.1 task.2 = .ok b)
        (xs.map (·.1)) alone ∧ alone.map Body.codes = bodies.map Body.codes := by
  induction xs generalizing bodies with
  | nil =>
    rw [List.map_eq_nil_iff.mp hbodies.symm]
    exact ⟨[], .nil, rfl⟩
  | cons x xs ih =>
    obtain ⟨b, bodies, rfl, hb, hbodies⟩ := List.map_eq_cons_iff.mp hbodies.symm
    rw [List.forall_mem_cons] at h
    obtain ⟨alone, halone, hcodes⟩ := ih h.2 hbodies.symm
    have hstage : x.2 = .ended (.ok b) := hb.symm
    have hx : some b.codes = (bodyAlone s table x.1.1 x.1.2).toOption.map Body.codes := by
      have hfaithful := h.1
      rwa [hstage] at hfaithful
    obtain ⟨b', hb', hcodes'⟩ := Option.map_eq_some_iff.mp hx.symm
    refine ⟨b' :: alone, .cons (eq_ok_of_toOption hb') halone, ?_⟩
    rw [List.map_cons, List.map_cons, hcodes', hcodes]

variable {batch : List Declaration}

theorem faithful_start {store : Store} (hbatch : ∀ d ∈ batch, Cacheable d.value)
    (hstore : Sound hashed store) :
    Situation.Faithful s reserved hashed ⟨store, allAt .waiting (tasks batch)⟩ where
  store_sound := hstore
  bodies_cacheable := by
    simpa [allAt, tasks] using hbatch
  bodies_faithful := List.forall_mem_map.mpr fun _ _ => trivial

/-- However the turns of its bodies interleave, a batch leaves the store sound and ends as it would
    without a store. -/
theorem visible_of_executes {store store' : Store} {hashed' : List Bytes}
    {outcome : Except Failure Outcome} (h : Executes s store table batch hashed' store' outcome)
    (hhashed : Collisionless hashed) (hsub : hashed' ⊆ hashed)
    (hbatch : ∀ d ∈ batch, Cacheable d.value) (hstore : Sound hashed store) :
    Sound hashed store' ∧ visible outcome = visible (run s none none table batch).outcome := by
  cases h with
  | unreserved hreserve =>
    rw [outcome_run, hreserve]
    exact ⟨hstore, rfl⟩
  | @failed reserved final task e hreserve hsteps hsettled hfailed =>
    have hfinal := faithful_of_steps hsteps hhashed hsub (faithful_start hbatch hstore)
    have htask : task ∈ tasks batch := by
      rw [← map_fst_allAt .waiting (tasks batch), ← tasks_of_steps hsteps]
      exact List.mem_map_of_mem hfailed
    refine ⟨hfinal.store_sound, ?_⟩
    -- without a store the body fails as well, and with it the batch
    have hnone : ∀ o, (run s none none table batch).outcome ≠ .ok o := by
      intro o ho
      obtain ⟨reserved', hreserve', bodies, ⟨-, hbodies⟩, -⟩ := run_eq_ok_iff.mp ho
      obtain rfl : reserved = reserved' := Except.ok.inj (hreserve.symm.trans hreserve')
      obtain ⟨b, -, hb⟩ := exists_of_mem_right hbodies.flip htask
      have halone := hfinal.bodies_faithful _ hfailed
      simp only [Stage.Faithful, hb] at halone
      cases halone
    cases houtcome : (run s none none table batch).outcome with
    | error e => rfl
    | ok o => exact absurd houtcome (hnone o)
  | @finished reserved final bodies hreserve hsteps hbodies =>
    have hfinal := faithful_of_steps hsteps hhashed hsub (faithful_start hbatch hstore)
    obtain ⟨alone, halone, hcodes⟩ := exists_alone hfinal.bodies_faithful hbodies
    rw [tasks_of_steps hsteps, map_fst_allAt] at halone
    have hcompile : (compileBodies s none reserved none (tasks batch)).2 = .ok alone :=
      compileBodies_eq_ok.mpr ⟨.inl rfl, halone⟩
    refine ⟨hfinal.store_sound, ?_⟩
    rw [outcome_run, hreserve, ok_bind, hcompile, ok_bind]
    exact visible_conclude hcodes.symm

end

/-! ## Sessions -/

section

variable {s : Settings} {table : DeclTable} {hashed : List Bytes}

theorem tableAfter_congr {outcome outcome' : Except Failure Outcome}
    (h : visible outcome = visible outcome') :
    tableAfter table outcome = tableAfter table outcome' := by
  have hafter : ∀ r, tableAfter table r = ((visible r).map (·.1)).getD table := by
    intro r
    cases r <;> rfl
  rw [hafter, hafter, h]

theorem store_run_none {interrupt : Option Interrupt} {batch : List Declaration} :
    (run s interrupt none table batch).store = none := by
  rw [store_run]
  cases reserve table batch with
  | error e => rfl
  | ok reserved => exact compileBodies_none

theorem visible_of_session {store : Store} {batches : List (List Declaration)}
    {hashed' : List Bytes} {outcomes : List (Except Failure Outcome)}
    (h : Session s store table batches hashed' outcomes) (hhashed : Collisionless hashed)
    (hsub : hashed' ⊆ hashed) (hbatches : ∀ batch ∈ batches, ∀ d ∈ batch, Cacheable d.value)
    (hstore : Sound hashed store) :
    outcomes.map visible = (inOrder s none table batches).map visible := by
  induction h with
  | nil => rfl
  | @cons store store' table batch batches hashed₁ hashed₂ outcome outcomes hbatch hrest ih =>
    obtain ⟨hsub₁, hsub₂⟩ := List.append_subset.mp hsub
    rw [List.forall_mem_cons] at hbatches
    obtain ⟨hstore', hvisible⟩ := visible_of_executes hbatch hhashed hsub₁ hbatches.1 hstore
    rw [inOrder, store_run_none, List.map_cons, List.map_cons, hvisible,
      ih hsub₂ hbatches.2 hstore', tableAfter_congr hvisible]

/-- Batches compiled one after another through a store in memory, in whatever order the turns of
    their bodies are taken, succeed when they do without a store, with the same procedures and the
    same tables. -/
theorem visible_session {batches : List (List Declaration)} {hashed : List Bytes}
    {outcomes : List (Except Failure Outcome)}
    (hsession : Session s .inMemory table batches hashed outcomes)
    (hbatches : ∀ batch ∈ batches, ∀ d ∈ batch, Cacheable d.value)
    (hhashed : Collisionless hashed) :
    outcomes.map visible = (inOrder s none table batches).map visible :=
  visible_of_session hsession hhashed (List.Subset.refl hashed) hbatches (sound_inMemory hashed)

end

/-- Plain settings with verification. -/
def verified : Settings :=
  { Settings.plain with verify := true }

/-- Three batches.  The second fails when the code of its first body is already stored; the bodies
    of the third are those of the first two, spelled differently and in another order. -/
def multiplesTwice : List (List Declaration) :=
  [[⟨"double", .lam "x" (.app (.global "add") [.var 0, .var 0])⟩],
    [⟨"triple", .lam "x" (.app (.global "add") [.var 0, .app (.global "double") [.var 0]])⟩,
      ⟨"broken", .global "missing"⟩],
    [⟨"thrice", .lam "y" (.app (.app (.global "add") [.var 0]) [.app (.global "double") [.var 0]])⟩,
      ⟨"twice", .lam "z" (.app (.global "add") [.var 0, .var 0])⟩]]

theorem multiplesTwice_visible :
    (∃ hashed, Collisionless hashed ∧ Session verified .inMemory onlyAdd.table multiplesTwice hashed
      (inOrder verified (some .inMemory) onlyAdd.table multiplesTwice)) ∧
    (inOrder verified (some .inMemory) onlyAdd.table multiplesTwice).map
      (fun outcome => outcome.toOption.map (·.hits)) = [some 0, none, some 2] ∧
    (inOrder verified (some .inMemory) onlyAdd.table multiplesTwice).map visible
      = (inOrder verified none onlyAdd.table multiplesTwice).map visible := by
  obtain ⟨hashed, hsession, hsub⟩ :=
    session_inOrder verified .inMemory onlyAdd.table multiplesTwice
  have hkeys :
      Collisionless (keysInOrder verified (some .inMemory) onlyAdd.table multiplesTwice) := by
    decide +kernel
  refine ⟨⟨hashed, hkeys.mono hsub, hsession⟩, by decide +kernel, ?_⟩
  exact visible_session hsession (by decide +kernel) (hkeys.mono hsub)

end Build

end TermVM
