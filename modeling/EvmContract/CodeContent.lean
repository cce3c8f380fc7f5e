import EvmContract.Cache

/-!
# Code is content-addressed

A code row is keyed by its hash, and the interpreter hands `update_account_code` the code whose
hash it passes. The contract never checks this. It keeps the first bytes it was given for a hash
(`addCodeRef` ignores the code of a hash it already has). With `codeOf` the code of each hash:

* `Op.GivesCode`, `Call.GivesCode`: a call passes the code of its hash;
* `Db.CodeSound`, `State.CodeSound`: every code row, and every `addr2code` entry, holds the code
  of its hash. Every call that gives code keeps this (`Db.CodeSound.apply`,
  `State.CodeSound.call`);
* `code_reads_sound`: on one instance over any state so reached, along any run of calls, every
  `read_code` replies with the code of its hash or with no code. An `addr2code` entry whose row
  `gc` has since erased is still served, but with the right bytes.
-/

namespace EvmContract

/-- The call passes `update_account_code` the code of the hash it passes. -/
def Op.GivesCode (codeOf : Bytes32 → Bytes) : Op → Prop
  | .updateAccountCode _ codeHash code => code = codeOf codeHash
  | _ => True

/-- A write passes the code of its hash; reads pass no code. -/
def Call.GivesCode (codeOf : Bytes32 → Bytes) : Call → Prop
  | .write op => op.GivesCode codeOf
  | _ => True

/-- The reply to a code read is the code of the hash, or no code. -/
def Reply.CodeSound (codeOf : Bytes32 → Bytes) : Call → Reply → Prop
  | .readCode codeHash, .code bytes => bytes = codeOf codeHash ∨ bytes = []
  | _, _ => True

/-! ### The tables -/

namespace Db

/-- Every code row holds the code of its hash. -/
def CodeSound (codeOf : Bytes32 → Bytes) (db : Db) : Prop :=
  ∀ r ∈ db.codes.rows, r.code = codeOf r.codeHash

variable {codeOf : Bytes32 → Bytes} {db db' : Db}

theorem CodeSound.of_sublist (h : db.CodeSound codeOf)
    (hs : db'.codes.rows.Sublist db.codes.rows) : db'.CodeSound codeOf :=
  fun r hr => h r (hs.subset hr)

theorem CodeSound.of_codes (h : db.CodeSound codeOf) (he : db'.codes = db.codes) :
    db'.CodeSound codeOf :=
  h.of_sublist (by rw [he])

theorem CodeSound.modifyRefCount (h : db.CodeSound codeOf) (c : CodeRow) (f : UInt32 → UInt32) :
    (db.modifyRefCount c f).CodeSound codeOf := fun x hx => by
  rcases mem_modifyRefCount.1 hx with ⟨hc, rfl⟩ | ⟨hx, -⟩
  exacts [h c hc, h x hx]

theorem CodeSound.emplaceCode (h : db.CodeSound codeOf) (codeHash : Bytes32) :
    (db.emplaceCode codeHash (codeOf codeHash)).CodeSound codeOf := fun x hx => by
  rcases Table.mem_emplace.1 hx with hx | rfl
  exacts [h x hx, rfl]

/-- Every call that gives code keeps the code rows sound: only `update_account_code` creates a
row, with the code it is given; counts change, bytes do not; `gc` only erases. -/
theorem CodeSound.apply (h : db.CodeSound codeOf) :
    ∀ op : Op, op.GivesCode codeOf → (op.apply db).CodeSound codeOf
  | .updateAccount address initial current, _ =>
    updateAccount_induction (P := CodeSound codeOf) (fun _ => h) (fun _ _ _ _ => h.of_codes rfl)
      (fun _ _ _ _ _ => h.of_codes rfl)
      (fun row _ _ _ => CodeSound.of_codes
        (@releaseCode_induction (db.enqueueStore row.id) (CodeSound codeOf) row.codeHash
          (h.of_codes rfl) fun _ c _ _ => (h.of_codes (by split <;> rfl)).modifyRefCount c _)
        (removeAccount_frame ..).2.2.2.1)
  | .updateAccountCode address codeHash code, hg =>
    (addCodeRef_induction (P := CodeSound codeOf)
      (fun _ => by rw [show code = codeOf codeHash from hg]; exact h.emplaceCode codeHash)
      (fun c _ => h.modifyRefCount c _)).of_codes (setAccountCode_frame ..).2.1
  | .updateStorage address location current, _ =>
    updateStorage_induction (P := CodeSound codeOf) (fun _ _ => h)
      (fun _ _ _ => h.of_codes (eraseSlot_frame ..).2.1) (fun _ _ => h.of_codes (by simp))
      (fun _ _ _ => h.of_codes (writeSlot_frame ..).2.1)
  | .gc max, _ => h.of_sublist (gc_codes_sublist db max)

theorem CodeSound.empty : Db.empty.CodeSound codeOf := fun _ hr => absurd hr (List.not_mem_nil _)

end Db

/-! ### The instance -/

/-- The tables and the code cache hold the code of each hash. -/
structure State.CodeSound (codeOf : Bytes32 → Bytes) (st : State) : Prop where
  tables : st.db.CodeSound codeOf
  cache : ∀ codeHash code, st.addr2code codeHash = some code → code = codeOf codeHash

namespace State

variable {codeOf : Bytes32 → Bytes} {st : State}

theorem readAccount_addr2code (st : State) (address : Address) :
    (st.readAccount address).2.addr2code = st.addr2code := by
  unfold readAccount; split <;> rfl

theorem readStorage_addr2code (st : State) (address : Address) (location : Bytes32) :
    (st.readStorage address location).2.addr2code = st.addr2code := by
  unfold readStorage; split
  · rfl
  · split <;> rfl

theorem CodeSound.of_eq {st' : State} (hs : st.CodeSound codeOf) (hdb : st'.db = st.db)
    (hc : st'.addr2code = st.addr2code) : st'.CodeSound codeOf :=
  ⟨hdb ▸ hs.tables, hc ▸ hs.cache⟩

/-- A code read replies with the code of the hash or with no code, and caches only the code of
the hash. -/
theorem CodeSound.readCode (hs : st.CodeSound codeOf) (codeHash : Bytes32) :
    ((st.readCode codeHash).1 = codeOf codeHash ∨ (st.readCode codeHash).1 = []) ∧
      (st.readCode codeHash).2.CodeSound codeOf := by
  unfold State.readCode
  split
  · exact ⟨.inl (hs.cache _ _ ‹_›), hs⟩
  · split
    · exact ⟨.inr rfl, hs⟩
    · rename_i r hr
      obtain ⟨hm, rfl⟩ := Db.findCode_some hr
      split
      · exact ⟨.inr rfl, hs⟩
      · refine ⟨.inl (hs.tables r hm), hs.tables, fun h code hc => ?_⟩
        dsimp only at hc
        by_cases e : h = r.codeHash
        · subst e
          rw [Function.update_same] at hc
          exact (Option.some.inj hc) ▸ hs.tables r hm
        · rw [Function.update_noteq e] at hc
          exact hs.cache h code hc

/-- One call keeps the instance sound and, if it is a code read, replies soundly. -/
theorem CodeSound.call (hs : st.CodeSound codeOf) :
    ∀ c : Call, c.GivesCode codeOf →
      Reply.CodeSound codeOf c (st.call c).1 ∧ (st.call c).2.CodeSound codeOf
  | .readAccount address, _ =>
    ⟨trivial, hs.of_eq (readAccount_db st address) (readAccount_addr2code st address)⟩
  | .readStorage address location, _ =>
    ⟨trivial, hs.of_eq (readStorage_db st address location)
      (readStorage_addr2code st address location)⟩
  | .readCode codeHash, _ => hs.readCode codeHash
  | .write op, hop => ⟨trivial, hs.tables.apply op hop, hs.cache⟩

/-- Along a run of calls that give code, every code read replies soundly. -/
theorem CodeSound.runCalls (hs : st.CodeSound codeOf) (cs : List Call)
    (hcs : ∀ c ∈ cs, c.GivesCode codeOf) :
    List.Forall₂ (Reply.CodeSound codeOf) cs (st.runCalls cs).1 := by
  induction cs generalizing st with
  | nil => exact .nil
  | cons c cs ih =>
    obtain ⟨h1, h2⟩ := hs.call c (hcs c (List.mem_cons_self _ _))
    exact .cons h1 (ih h2 fun c' hc' => hcs c' (List.mem_cons_of_mem _ hc'))

end State

/-- **Code reads never return wrong bytes, stale caches included.** In every state reached by
calls that pass `update_account_code` the code of its hash, on a new instance, along any run of
reads and writes that do the same, every `read_code` replies with the code of its hash or with
no code: the tables keep the first bytes given for a hash, and `addr2code` caches only those,
so an entry whose row `gc` has since erased still holds the right bytes. -/
theorem code_reads_sound (codeOf : Bytes32 → Bytes) {db : Db}
    (hdb : ReachableBy (fun _ op => op.GivesCode codeOf) db)
    (cs : List Call) (hcs : ∀ c ∈ cs, c.GivesCode codeOf) :
    List.Forall₂ (Reply.CodeSound codeOf) cs ((State.fresh db).runCalls cs).1 :=
  State.CodeSound.runCalls
    ⟨hdb.induction Db.CodeSound.empty fun _ op h hop => h.apply op hop,
      fun _ _ h => Option.noConfusion h⟩
    cs hcs

theorem code_reads_sound_after_gc :
    ReachableBy (fun _ op => op.GivesCode (fun _ => [7])) Db.empty ∧
      (∀ c ∈ [Call.write (.updateAccountCode 0 1 [7]), .readCode 1, .write (.gc 10), .readCode 1],
        c.GivesCode fun _ => [7]) ∧
      List.Forall₂ (Reply.CodeSound fun _ => [7])
        [Call.write (.updateAccountCode 0 1 [7]), .readCode 1, .write (.gc 10), .readCode 1]
        ((State.fresh Db.empty).runCalls
          [Call.write (.updateAccountCode 0 1 [7]), .readCode 1, .write (.gc 10), .readCode 1]).1 :=
  have hcs : ∀ c ∈ [Call.write (.updateAccountCode 0 1 [7]), .readCode 1, .write (.gc 10),
      .readCode 1], c.GivesCode fun _ => [7] := by
    simp [Call.GivesCode, Op.GivesCode]
  ⟨.empty, hcs, code_reads_sound _ .empty _ hcs⟩

end EvmContract
