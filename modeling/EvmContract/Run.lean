import EvmContract.GcSpec

/-!
# Runs of the state engine

The calls the interpreter and the operator make on the tables, and the states that runs of them
reach from a fresh deployment:

* `Op`: `update_account`, `update_account_code`, `update_storage` and `gc`, with their arguments;
* `Db.run`: the tables after a list of calls;
* `RunOk ok db ops`: each call of the run satisfies `ok` in the state where it is made;
* `ReachableBy ok`: the states reached from the empty tables by calls that each satisfy `ok`
  in the state where they are made; `Reachable` puts no condition on the calls.
-/

namespace EvmContract

/-- A call on the tables. -/
inductive Op
  | updateAccount (address : Address) (initial current : Option Account)
  | updateAccountCode (address : Address) (codeHash : Bytes32) (code : Bytes)
  | updateStorage (address : Address) (location current : Bytes32)
  | gc (max : UInt32)
  deriving DecidableEq, Repr

/-- The tables after the call. -/
def Op.apply : Op → Db → Db
  | .updateAccount address initial current, db => db.updateAccount address initial current
  | .updateAccountCode address codeHash code, db => db.updateAccountCode address codeHash code
  | .updateStorage address location current, db => db.updateStorage address location current
  | .gc max, db => (db.gc max).2

/-- The tables after a run of calls. -/
def Db.run (db : Db) : List Op → Db
  | [] => db
  | op :: ops => (op.apply db).run ops

@[simp] theorem Db.run_nil (db : Db) : db.run [] = db := rfl

@[simp] theorem Db.run_cons (db : Db) (op : Op) (ops : List Op) :
    db.run (op :: ops) = (op.apply db).run ops := rfl

theorem Db.run_append (db : Db) (ops ops' : List Op) :
    db.run (ops ++ ops') = (db.run ops).run ops' := by
  induction ops generalizing db with
  | nil => rfl
  | cons op ops ih => exact ih _

/-- Every call of the run satisfies `ok` in the state where it is made. -/
inductive RunOk (ok : Db → Op → Prop) : Db → List Op → Prop
  | nil (db : Db) : RunOk ok db []
  | cons {db : Db} {op : Op} {ops : List Op} :
      ok db op → RunOk ok (op.apply db) ops → RunOk ok db (op :: ops)

/-- A run split in two is allowed when both parts are, the second from where the first ends. -/
theorem RunOk.of_append {ok : Db → Op → Prop} {db : Db} {ops ops' : List Op}
    (h : RunOk ok db (ops ++ ops')) : RunOk ok db ops ∧ RunOk ok (db.run ops) ops' := by
  induction ops generalizing db with
  | nil => exact ⟨.nil _, h⟩
  | cons op ops ih =>
    cases h with
    | cons hok hrest => exact ⟨.cons hok (ih hrest).1, (ih hrest).2⟩

/-- The states reached from the empty tables by calls that each satisfy `ok` where made. -/
inductive ReachableBy (ok : Db → Op → Prop) : Db → Prop
  | empty : ReachableBy ok Db.empty
  | step {db : Db} (op : Op) : ReachableBy ok db → ok db op → ReachableBy ok (op.apply db)

/-- The states some run from the empty tables reaches: any calls, any arguments, any order. -/
def Reachable (db : Db) : Prop := ReachableBy (fun _ _ => True) db

theorem Reachable.step {db : Db} (op : Op) (h : Reachable db) : Reachable (op.apply db) :=
  ReachableBy.step op h trivial

/-- Every run from the empty tables ends in a reachable state. -/
theorem reachable_run (ops : List Op) : Reachable (Db.empty.run ops) := by
  suffices ∀ db, Reachable db → Reachable (db.run ops) from this _ ReachableBy.empty
  induction ops with
  | nil => exact fun _ h => h
  | cons op ops ih => exact fun db h => ih _ (h.step op)

/-- An invariant that holds initially and that every allowed call keeps holds in every state
the allowed runs reach. -/
theorem ReachableBy.induction {ok : Db → Op → Prop} {inv : Db → Prop} (h0 : inv Db.empty)
    (hs : ∀ db op, inv db → ok db op → inv (op.apply db)) {db : Db} (h : ReachableBy ok db) :
    inv db := by
  induction h with
  | empty => exact h0
  | step op _ hok ih => exact hs _ op ih hok

end EvmContract
