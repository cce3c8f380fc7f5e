import EvmContract.Cache
import EvmContract.Refinement

/-!
# Transitions: what the interpreter sees

The interpreter drives the contract one state transition at a time. A transition constructs a
`state` instance on the tables, with empty caches; the interpreter reads accounts, slots and code
through it while it executes, then makes the reconciliation writes (`update_account`,
`update_account_code`, `update_storage`) for what it touched, and the instance is dropped. A
`gc` sweep is a transition of its own, with no reads.

* `Read`, `Transition`, `Transition.calls`: a transition's reads, then its writes, as the calls
  its instance receives;
* `Db.transitionReplies`: the replies of a run of transitions, each on a new instance over the
  tables the transitions before it left; `Db.freshTransitionReplies`: the same with every read
  made on a new instance;
* `transition_replies_fresh`: the caches never change a reply the interpreter gets, on any
  tables: all of a transition's reads come before its first write;
* `World.answer`, `World.transitionAnswers`: what the abstract world answers to a read of an
  account or of a slot; `Reply.Agrees`: a reply is that answer, where there is one;
* `transitions_refine_world`: along every run of transitions from the empty tables whose account
  creations are clean, every read of an account or of a slot returns the abstract world's answer.

The shape of a transition is the interpreter's, which is not part of this repository; it is
modelled from the spec.
-/

namespace EvmContract

/-- A read the interpreter makes through the instance while it executes. -/
inductive Read
  | account (address : Address)
  | storage (address : Address) (location : Bytes32)
  | code (codeHash : Bytes32)
  deriving DecidableEq, Repr

/-- The call a read makes on the instance. -/
def Read.call : Read → Call
  | .account address => .readAccount address
  | .storage address location => .readStorage address location
  | .code codeHash => .readCode codeHash

/-- Modelled from the spec: a state transition, the reads the interpreter makes while it
executes, then the writes that reconcile what it touched; a `gc` sweep has no reads. -/
structure Transition where
  reads : List Read
  writes : List Op

/-- The calls a transition's instance receives. -/
def Transition.calls (t : Transition) : List Call := t.reads.map Read.call ++ t.writes.map .write

/-- The replies of a run of transitions, each on a new instance over the tables the transitions
before it left. -/
def Db.transitionReplies (db : Db) : List Transition → List (List Reply)
  | [] => []
  | t :: ts =>
    ((State.fresh db).runCalls t.calls).1 ::
      ((State.fresh db).runCalls t.calls).2.db.transitionReplies ts

/-- The replies of a run of transitions when every read is made on a new instance over the
tables at the transition's start. -/
def Db.freshTransitionReplies (db : Db) : List Transition → List (List Reply)
  | [] => []
  | t :: ts =>
    (t.reads.map (fun r => ((State.fresh db).call r.call).1) ++ t.writes.map fun _ => .done) ::
      (db.run t.writes).freshTransitionReplies ts

/-! ### One instance -/

namespace State

@[simp] theorem fresh_db (db : Db) : (fresh db).db = db := rfl

theorem runCalls_append (st : State) (cs cs' : List Call) :
    st.runCalls (cs ++ cs') =
      ((st.runCalls cs).1 ++ ((st.runCalls cs).2.runCalls cs').1,
        ((st.runCalls cs).2.runCalls cs').2) := by
  induction cs generalizing st with
  | nil => rfl
  | cons c cs ih => simp only [List.cons_append, runCalls, List.append_eq, ih]

/-- Writes reply `done` and go to the tables. -/
theorem runCalls_writes (st : State) (ops : List Op) :
    (st.runCalls (ops.map .write)).1 = ops.map (fun _ => .done) ∧
      (st.runCalls (ops.map .write)).2.db = st.db.run ops := by
  induction ops generalizing st with
  | nil => exact ⟨rfl, rfl⟩
  | cons op ops ih =>
    exact ⟨congrArg (Reply.done :: ·) (ih _).1, (ih { st with db := op.apply st.db }).2⟩

end State

/-- A read leaves no cache entry stale. -/
theorem Read.readsStale_call (st : State) : ∀ (r : Read) (c : Call), st.readsStale r.call c = false
  | .account _, _ | .storage _ _, _ | .code _, _ => rfl

theorem Read.apply_call (db : Db) : ∀ r : Read, r.call.apply db = db
  | .account _ | .storage _ _ | .code _ => rfl

/-- On a coherent instance, reads reply as on a new instance, keep the caches true, and leave the
tables. -/
theorem Coherent.runCalls_reads {st : State} (hc : Coherent st) (rs : List Read) :
    (st.runCalls (rs.map Read.call)).1 = rs.map (fun r => ((State.fresh st.db).call r.call).1) ∧
      Coherent (st.runCalls (rs.map Read.call)).2 ∧
      (st.runCalls (rs.map Read.call)).2.db = st.db := by
  induction rs generalizing st with
  | nil => exact ⟨rfl, hc, rfl⟩
  | cons r rs ih =>
    have hdb : (st.call r.call).2.db = st.db := by rw [State.call_db, Read.apply_call]
    obtain ⟨h1, h2, h3⟩ := ih (hc.call r.call (Read.readsStale_call st r))
    refine ⟨?_, h2, h3.trans hdb⟩
    simp only [List.map_cons, State.runCalls, h1, hc.call_fst, hdb]

/-- A transition's replies: its reads as on new instances over the tables at its start, its
writes `done`; and the tables after it are those its writes leave. -/
theorem Transition.runCalls_fresh (db : Db) (t : Transition) :
    ((State.fresh db).runCalls t.calls).1 =
        t.reads.map (fun r => ((State.fresh db).call r.call).1) ++ t.writes.map (fun _ => .done) ∧
      ((State.fresh db).runCalls t.calls).2.db = db.run t.writes := by
  obtain ⟨h1, -, h3⟩ := (Coherent.fresh db).runCalls_reads t.reads
  have hw := State.runCalls_writes ((State.fresh db).runCalls (t.reads.map Read.call)).2 t.writes
  rw [h3] at hw
  simp only [Transition.calls, State.runCalls_append, State.fresh_db, h1, hw, and_self]

/-- **The caches are invisible to the interpreter.** On any tables, along any run of
transitions, each on an instance of its own whose reads all come before its writes, every reply
is the one a new instance gives on the tables at the transition's start: no read ever meets a
cache entry that a write made stale. -/
theorem transition_replies_fresh (db : Db) (ts : List Transition) :
    db.transitionReplies ts = db.freshTransitionReplies ts := by
  induction ts generalizing db with
  | nil => rfl
  | cons t ts ih =>
    obtain ⟨h1, h2⟩ := Transition.runCalls_fresh db t
    simp only [Db.transitionReplies, Db.freshTransitionReplies, h1, h2, ih]

/-! ### The world's answers -/

/-- The abstract world's answer to a read: the account's snapshot with incarnation `0`, or the
slot's value, zero when absent. The world holds no code, and gives no answer to a code read. -/
def World.answer (w : World) : Read → Option Reply
  | .account address =>
    some (.account ((w address).map fun x => ⟨x.nonce, x.balance, x.codeHash, 0⟩))
  | .storage address location => some (.slot (((w address).map fun x => x.storage location).getD 0))
  | .code _ => none

/-- The world's answers to a run of transitions: each transition's reads answered by the world
the transitions before it left, its writes by `done`. -/
def World.transitionAnswers (w : World) : List Transition → List (List (Option Reply))
  | [] => []
  | t :: ts =>
    (t.reads.map w.answer ++ t.writes.map fun _ => some .done) ::
      (World.run Op.worldStepAmended w t.writes).transitionAnswers ts

/-- A reply agrees with the world's answer: the world gives none, or the same reply. -/
def Reply.Agrees (reply : Reply) (answer : Option Reply) : Prop := ∀ a ∈ answer, reply = a

theorem Reply.agrees_map {α : Type} (l : List α) {f : α → Reply} {g : α → Option Reply}
    (h : ∀ x ∈ l, Reply.Agrees (f x) (g x)) : List.Forall₂ Reply.Agrees (l.map f) (l.map g) :=
  List.forall₂_map_left_iff.2 (List.forall₂_map_right_iff.2 (List.forall₂_same.2 h))

/-- A new instance's reply to a read is the answer of the world the tables represent. -/
theorem World.answer_fresh (db : Db) (r : Read) :
    Reply.Agrees ((State.fresh db).call r.call).1 (db.world.answer r) := by
  intro a ha
  cases r with
  | account address =>
    obtain rfl := Option.mem_some_iff.1 ha
    simp only [Read.call, State.call, State.readAccount_fst, State.fresh_db,
      Db.readAccount_eq_world]
  | storage address location =>
    obtain rfl := Option.mem_some_iff.1 ha
    simp only [Read.call, State.call, State.readStorage_fresh, Db.readStorage_eq_world]
  | code _ => exact Option.noConfusion ha

/-- Along a run whose account creations are all clean, the refinement's invariant holds
throughout. -/
theorem WorldInv.run_inv {db : Db} (hi : WorldInv db) {ops : List Op}
    (h : RunOk Op.CreatesClean db ops) : WorldInv (db.run ops) := by
  induction h with
  | nil => exact hi
  | cons hc _ ih => exact ih (hi.apply _ hc)

/-- **The interpreter sees the abstract world.** Along every run of transitions from the empty
tables, each on an instance of its own that reads before it writes, in which no account is
created while a pending `gcstore` entry names the id it receives, every read of an account or of
a slot returns the answer of the world the amended description computes from the writes before
it. -/
theorem transitions_refine_world (ts : List Transition)
    (h : RunOk Op.CreatesClean Db.empty (ts.flatMap Transition.writes)) :
    List.Forall₂ (List.Forall₂ Reply.Agrees)
      (Db.empty.transitionReplies ts) (World.empty.transitionAnswers ts) := by
  rw [← Db.world_empty]
  suffices ∀ db, WorldInv db → RunOk Op.CreatesClean db (ts.flatMap Transition.writes) →
      List.Forall₂ (List.Forall₂ Reply.Agrees)
        (db.transitionReplies ts) (db.world.transitionAnswers ts) from
    this _ WorldInv.empty h
  clear h
  induction ts with
  | nil => exact fun _ _ _ => .nil
  | cons t ts ih =>
    intro db hi hok
    obtain ⟨h1, h2⟩ := RunOk.of_append (by simpa only [List.flatMap_cons] using hok)
    obtain ⟨e1, e2⟩ := Transition.runCalls_fresh db t
    rw [Db.transitionReplies, e1, e2, World.transitionAnswers, ← hi.run h1]
    refine .cons (List.rel_append ?_ ?_) (ih _ (hi.run_inv h1) h2)
    · exact Reply.agrees_map _ fun r _ => World.answer_fresh db r
    · exact Reply.agrees_map _ fun _ _ a ha => Option.mem_some_iff.1 ha

theorem transitions_refine_world_storage :
    RunOk Op.CreatesClean Db.empty [.updateStorage 1 1 5] ∧
      List.Forall₂ (List.Forall₂ Reply.Agrees)
        (Db.empty.transitionReplies
          [⟨[], [.updateStorage 1 1 5]⟩, ⟨[.storage 1 1, .account 1], []⟩])
        (World.empty.transitionAnswers
          [⟨[], [.updateStorage 1 1 5]⟩, ⟨[.storage 1 1, .account 1], []⟩]) :=
  have h : RunOk Op.CreatesClean Db.empty [.updateStorage 1 1 5] := .cons (by decide) (.nil _)
  ⟨h, transitions_refine_world _ h⟩

end EvmContract
