import EvmContract.Basic

/-!
# `eth_getLogs`

The RPC handler `handle_eth_get_logs` (`eth_api.cpp`) answers a log filter over a block range in
two stages: it first narrows the range to the blocks the log indexes name (`get_topics_bitmap`,
`get_addresses_bitmap`, Roaring bitmaps intersected with the range), then reads each selected
block's receipts and keeps the logs `filter_logs` accepts.

* `Bitmap`: a Roaring bitmap of block numbers, kept as the list of its members. The handler only
  tests bitmaps for emptiness and membership, and the one it iterates is always the range
  `addRange` builds, in increasing order, filtered; so the list model iterates as Roaring does;
* `Chain.index`: `ethdb::bitmap::get` on an exact index, the assumption the handler is read
  under: the blocks of the range holding a log the key selects;
* `handleGetLogs`: the handler from its block range on; `expectedLogs`: `filter_logs` over every
  block of the range;
* `handleGetLogs_eq_expected`: the two agree when some topic position is not a wildcard;
* `handleGetLogs_sublist`: the reply is always a sublist of the expected logs;
* `handleGetLogs_truncated`: the first block of the range without a canonical hash ends the
  reply, silently;
* `handleGetLogs_of_wildcards`: when every position is a wildcard the handler replies with no
  logs at all, whatever the chain holds.

Block numbers are `Nat`. The handler hands `start` and `end + 1` unchecked to a Roaring bitmap of
`uint32` members and casts the range's cardinality to `uint32`, so `addRange` is the range it
builds only for block numbers below `2^32 - 1`: beyond, the members are truncated, `end + 1` may
wrap, and what Roaring then adds depends on its version, which is not part of this repository.
The theorems that describe the reply over a range take `start` and `stop` in `Fin (2^32 - 1)`.

The request comes first (`handleEthGetLogs`): exactly one parameter, the filter; a `block_hash`
in it must decode from hex and then names the one block of the range; otherwise the range is
`[from_block, to_block]`, each bound defaulting to the latest block. A failed check replies with
error code `100` and a message that names it (`handleEthGetLogs_error`); any other reply is the
block-range handler on the resolved range (`handleEthGetLogs_content`).
-/

namespace EvmContract

namespace Rpc

/-- A log: the emitting address and the topics `filter_logs` reads; `data` stands for the rest of
the log, which the handler returns untouched. -/
structure Log where
  address : Address
  topics : List Bytes32
  data : Bytes
  deriving DecidableEq, Repr

/-- A receipt: its logs. -/
structure Receipt where
  logs : List Log
  deriving DecidableEq, Repr

/-- The parts of the chain database the handler reads, by block number. -/
structure Chain where
  /-- `read_canonical_block_hash`; zero for a block with no canonical hash. -/
  canonicalHash : Nat → Bytes32
  /-- `get_receipts`, which returns `read_receipts` (empty when none are stored). -/
  receipts : Nat → List Receipt

/-- The filter of `eth_getLogs` (`Filter`): an optional list of addresses and an optional list of
topic positions, each a list of alternatives, an empty one a wildcard. -/
structure LogFilter where
  addresses : Option (List Address)
  topics : Option (List (List Bytes32))
  deriving DecidableEq, Repr

/-- The logs of a block, receipt after receipt (`unfiltered_logs`). -/
def Chain.logs (chain : Chain) (b : Nat) : List Log := (chain.receipts b).flatMap (·.logs)

/-! ### Bitmaps -/

/-- A Roaring bitmap of block numbers, as the list of its members. -/
abbrev Bitmap := List Nat

/-- `addRange(lo, hi)`: the numbers from `lo` below `hi`, in increasing order; the handler's
range for bounds below `2^32` (see the module doc). -/
def addRange (lo hi : Nat) : Bitmap := List.range' lo (hi - lo)

/-- `a &= b`. -/
def Bitmap.and (a b : Bitmap) : Bitmap := a.filter (· ∈ b)

/-- `a |= b`. -/
def Bitmap.or (a b : Bitmap) : Bitmap := a ∪ b

@[simp] theorem mem_addRange {lo hi n : Nat} : n ∈ addRange lo hi ↔ lo ≤ n ∧ n < hi := by
  simp only [addRange, List.mem_range'_1]; omega

theorem mem_addRange_succ {lo hi n : Nat} : n ∈ addRange lo (hi + 1) ↔ lo ≤ n ∧ n ≤ hi := by
  rw [mem_addRange]; omega

/-- A range split at one of its members. -/
theorem addRange_eq_append {lo mid hi : Nat} (h1 : lo ≤ mid) (h2 : mid < hi) :
    addRange lo hi = addRange lo mid ++ mid :: addRange (mid + 1) hi := by
  obtain ⟨k, rfl⟩ := Nat.exists_eq_add_of_le h1
  obtain ⟨j, rfl⟩ := Nat.exists_eq_add_of_lt h2
  have e := List.range'_append lo k (j + 1) 1
  rw [Nat.one_mul, List.range'_succ] at e
  simp only [addRange, Nat.add_sub_cancel_left, show lo + k + j + 1 - lo = j + 1 + k by omega,
    show lo + k + j + 1 - (lo + k + 1) = j by omega, ← e]

@[simp] theorem Bitmap.mem_or {a b : Bitmap} {n : Nat} : n ∈ a.or b ↔ n ∈ a ∨ n ∈ b :=
  List.mem_union_iff

/-- An intersection the handler replaces by the right side when that side is empty is still the
intersection. -/
theorem Bitmap.and_of_isEmpty (a b : Bitmap) :
    (if b.isEmpty then b else a.and b) = a.filter (· ∈ b) := by
  split
  · rename_i h; rw [List.isEmpty_iff.1 h]; simp
  · rfl

/-- The members of a union of bitmaps, one per item. -/
theorem Bitmap.mem_foldl_or {β : Type} (f : β → Bitmap) (l : List β) (init : Bitmap) (n : Nat) :
    n ∈ l.foldl (fun acc y => acc.or (f y)) init ↔ n ∈ init ∨ ∃ y ∈ l, n ∈ f y := by
  induction l generalizing init with
  | nil => simp
  | cons y ys ih =>
    simp only [List.foldl_cons, ih, mem_or, List.mem_cons, exists_eq_or_imp]
    tauto

/-! ### The indexes -/

/-- Modelled from the spec: `ethdb::bitmap::get` on an exact index, the blocks of
`[start, stop]` holding a log that `has` selects. -/
def Chain.index (chain : Chain) (has : Log → Bool) (start stop : Nat) : Bitmap :=
  (addRange start (stop + 1)).filter fun b => (chain.logs b).any has

/-- The bitmap of `kLogTopicIndex` for `topic`: a log carrying it at any position. -/
def Chain.topicBitmap (chain : Chain) (topic : Bytes32) (start stop : Nat) : Bitmap :=
  chain.index (fun log => log.topics.contains topic) start stop

/-- The bitmap of `kLogAddressIndex` for `address`. -/
def Chain.addressBitmap (chain : Chain) (address : Address) (start stop : Nat) : Bitmap :=
  chain.index (fun log => log.address == address) start stop

theorem Chain.mem_index {chain : Chain} {has : Log → Bool} {start stop b : Nat}
    (hb : start ≤ b ∧ b ≤ stop) {log : Log} (hl : log ∈ chain.logs b) (hh : has log) :
    b ∈ chain.index has start stop :=
  List.mem_filter.2 ⟨mem_addRange_succ.2 hb, List.any_eq_true.2 ⟨log, hl, hh⟩⟩

/-! ### The handler -/

/-- The bitmap of one topic position (`subtopic_bitmap`): the union of its alternatives'. -/
def subtopicBitmap (chain : Chain) (subtopics : List Bytes32) (start stop : Nat) : Bitmap :=
  subtopics.foldl (fun acc topic => acc.or (chain.topicBitmap topic start stop)) []

/-- One pass of the loop of `get_topics_bitmap`: a position whose bitmap is empty is skipped,
the first non-empty one is taken as it is, and each later one intersected. -/
def topicsStep (chain : Chain) (start stop : Nat) (result : Bitmap) (subtopics : List Bytes32) :
    Bitmap :=
  let sub := subtopicBitmap chain subtopics start stop
  if !sub.isEmpty then (if result.isEmpty then sub else result.and sub) else result

/-- `get_topics_bitmap`. -/
def getTopicsBitmap (chain : Chain) (topics : List (List Bytes32)) (start stop : Nat) : Bitmap :=
  topics.foldl (topicsStep chain start stop) []

/-- `get_addresses_bitmap`: the union of the addresses' bitmaps. -/
def getAddressesBitmap (chain : Chain) (addresses : List Address) (start stop : Nat) : Bitmap :=
  addresses.foldl (fun result address => result.or (chain.addressBitmap address start stop)) []

/-- The topic test of `filter_logs`: no more positions than the log has topics, and at each
position a wildcard or an alternative equal to the log's topic there. -/
def topicsMatch (topics : List (List Bytes32)) (logTopics : List Bytes32) : Bool :=
  decide (topics.length ≤ logTopics.length) &&
    (topics.zip logTopics).all fun p => p.1.isEmpty || p.1.contains p.2

/-- `filter_logs`. -/
def filterLogs (logs : List Log) (filter : LogFilter) : List Log :=
  logs.filter fun log =>
    filter.addresses.all (·.contains log.address) && filter.topics.all (topicsMatch · log.topics)

/-- The loop over the selected blocks, with the reply gathered so far: a block whose canonical
hash is zero ends it. -/
def collectLogs (chain : Chain) (filter : LogFilter) : List Nat → List Log → List Log
  | [], logs => logs
  | b :: bs, logs =>
    if chain.canonicalHash b = 0 then logs
    else collectLogs chain filter bs (logs ++ filterLogs (chain.logs b) filter)

/-- The blocks `handle_eth_get_logs` reads: the range, narrowed by the topics bitmap and then by
the addresses bitmap, each replacing the selection when it is empty. -/
def selectBlocks (chain : Chain) (filter : LogFilter) (start stop : Nat) : Bitmap :=
  let blockNumbers := addRange start (stop + 1)
  let blockNumbers := match filter.topics with
    | none => blockNumbers
    | some topics =>
      let topicsBitmap := getTopicsBitmap chain topics start stop
      if topicsBitmap.isEmpty then topicsBitmap else blockNumbers.and topicsBitmap
  match filter.addresses with
  | none => blockNumbers
  | some addresses =>
    let addressesBitmap := getAddressesBitmap chain addresses start stop
    if addressesBitmap.isEmpty then addressesBitmap else blockNumbers.and addressesBitmap

/-- `handle_eth_get_logs` on the block range `[start, stop]`: the logs of its reply. -/
def handleGetLogs (chain : Chain) (filter : LogFilter) (start stop : Nat) : List Log :=
  let blockNumbers := selectBlocks chain filter start stop
  if blockNumbers.length = 0 then [] else collectLogs chain filter blockNumbers []

/-- Modelled from the spec: the reply the handler is meant to give, `filter_logs` over each
block's logs from `start` to `stop`, in increasing order. -/
def expectedLogs (chain : Chain) (filter : LogFilter) (start stop : Nat) : List Log :=
  (addRange start (stop + 1)).flatMap fun b => filterLogs (chain.logs b) filter

/-! ### The block selection -/

section Selection

variable {chain : Chain} {filter : LogFilter} {start stop : Nat}

/-- The selected blocks are the range filtered by membership in the two bitmaps. -/
theorem selectBlocks_eq :
    selectBlocks chain filter start stop = (addRange start (stop + 1)).filter fun b =>
      filter.addresses.all (fun addresses => b ∈ getAddressesBitmap chain addresses start stop) &&
        filter.topics.all (fun topics => b ∈ getTopicsBitmap chain topics start stop) := by
  rcases filter with ⟨_ | addresses, _ | topics⟩ <;>
    simp only [selectBlocks, Bitmap.and_of_isEmpty] <;> simp [List.filter_filter]

/-- With every canonical hash non-zero the loop reads every selected block. -/
theorem collectLogs_eq {bs : List Nat} (hh : ∀ b ∈ bs, chain.canonicalHash b ≠ 0)
    (logs : List Log) :
    collectLogs chain filter bs logs =
      logs ++ bs.flatMap fun b => filterLogs (chain.logs b) filter := by
  induction bs generalizing logs with
  | nil => simp [collectLogs]
  | cons b bs ih =>
    rw [collectLogs, if_neg (hh b (List.mem_cons_self _ _)),
      ih (fun b' hb' => hh b' (List.mem_cons_of_mem _ hb')), List.flatMap_cons, List.append_assoc]

/-- Dropping blocks whose logs the filter rejects loses nothing. -/
theorem flatMap_filter_of {l : List Nat} {p : Nat → Bool} {g : Nat → List Log}
    (h : ∀ b ∈ l, g b ≠ [] → p b) : (l.filter p).flatMap g = l.flatMap g := by
  induction l with
  | nil => rfl
  | cons b bs ih =>
    have ih' := ih fun b' hb' => h b' (List.mem_cons_of_mem _ hb')
    by_cases hp : p b
    · rw [List.filter_cons_of_pos hp, List.flatMap_cons, List.flatMap_cons, ih']
    · have hg : g b = [] := by_contra fun hg => hp (h b (List.mem_cons_self _ _) hg)
      rw [List.filter_cons_of_neg hp, List.flatMap_cons, hg, List.nil_append, ih']

/-- The loop returns the reply so far followed by a prefix of the selected blocks' logs. -/
theorem collectLogs_sublist (bs : List Nat) (logs : List Log) :
    (collectLogs chain filter bs logs).Sublist
      (logs ++ bs.flatMap fun b => filterLogs (chain.logs b) filter) := by
  induction bs generalizing logs with
  | nil => simp [collectLogs]
  | cons b bs ih =>
    rw [collectLogs, List.flatMap_cons]
    split
    · exact List.sublist_append_left _ _
    · rw [← List.append_assoc]; exact ih _

/-- The loop reads the selected blocks up to the first one without a canonical hash. -/
theorem collectLogs_eq_takeWhile (bs : List Nat) (logs : List Log) :
    collectLogs chain filter bs logs =
      logs ++ (bs.takeWhile fun b => chain.canonicalHash b ≠ 0).flatMap
        fun b => filterLogs (chain.logs b) filter := by
  induction bs generalizing logs with
  | nil => simp [collectLogs]
  | cons b bs ih =>
    by_cases h : chain.canonicalHash b = 0
    · rw [collectLogs, if_pos h, List.takeWhile_cons_of_neg (by simpa using h)]
      exact (List.append_nil _).symm
    · rw [collectLogs, if_neg h, ih, List.takeWhile_cons_of_pos (by simpa using h),
        List.flatMap_cons, List.append_assoc]

theorem flatMap_filter_sublist (l : List Nat) (p : Nat → Bool) (g : Nat → List Log) :
    ((l.filter p).flatMap g).Sublist (l.flatMap g) := by
  induction l with
  | nil => exact List.Sublist.slnil
  | cons b bs ih =>
    rw [List.filter_cons, List.flatMap_cons]
    split
    · rw [List.flatMap_cons]; exact ih.append_left _
    · exact ih.trans (List.sublist_append_right _ _)

end Selection

/-! ### What the indexes see of an accepted log -/

section Accepted

variable {chain : Chain} {start stop b : Nat} (hb : start ≤ b ∧ b ≤ stop) {log : Log}
  (hl : log ∈ chain.logs b)
include hb hl

theorem mem_getAddressesBitmap {addresses : List Address} (ha : addresses.contains log.address) :
    b ∈ getAddressesBitmap chain addresses start stop :=
  (Bitmap.mem_foldl_or _ addresses [] b).2 <| .inr
    ⟨log.address, by simpa using ha, Chain.mem_index hb hl (by simp)⟩

theorem mem_subtopicBitmap {subtopics : List Bytes32} {t : Bytes32} (ht : t ∈ subtopics)
    (hlt : t ∈ log.topics) : b ∈ subtopicBitmap chain subtopics start stop :=
  (Bitmap.mem_foldl_or _ subtopics [] b).2 <| .inr
    ⟨t, ht, Chain.mem_index hb hl (by simpa using hlt)⟩

end Accepted

/-- A log the topic test accepts carries one alternative of every position that is not a
wildcard. -/
theorem topicsMatch_mem {topics : List (List Bytes32)} {logTopics : List Bytes32}
    (hm : topicsMatch topics logTopics) {subtopics : List Bytes32} (hs : subtopics ∈ topics)
    (hne : subtopics ≠ []) : ∃ t ∈ subtopics, t ∈ logTopics := by
  simp only [topicsMatch, Bool.and_eq_true, decide_eq_true_eq, List.all_eq_true] at hm
  obtain ⟨i, hi, rfl⟩ := List.mem_iff_getElem.1 hs
  have hi' : i < logTopics.length := Nat.lt_of_lt_of_le hi hm.1
  have hz : (topics[i], logTopics[i]) ∈ topics.zip logTopics := by
    rw [List.mem_iff_getElem]
    exact ⟨i, by simp [hi, hi'], List.getElem_zip⟩
  have := hm.2 _ hz
  simp only [Bool.or_eq_true, List.isEmpty_iff, hne, false_or, List.elem_eq_mem,
    decide_eq_true_eq, List.contains] at this
  exact ⟨_, this, List.getElem_mem hi'⟩

/-- A wildcard position leaves the accumulated bitmap as it is. -/
theorem topicsStep_nil (chain : Chain) (start stop : Nat) (result : Bitmap) :
    topicsStep chain start stop result [] = result := rfl

/-- A block of a position's bitmap stays in the accumulated bitmap, unless that bitmap is
non-empty and has lost it already. -/
theorem mem_topicsStep {chain : Chain} {start stop b : Nat} {result : Bitmap}
    {subtopics : List Bytes32} (hr : result = [] ∨ b ∈ result)
    (hb : b ∈ subtopicBitmap chain subtopics start stop) :
    b ∈ topicsStep chain start stop result subtopics := by
  rw [topicsStep, if_pos (by simpa [List.isEmpty_iff] using List.ne_nil_of_mem hb)]
  split
  · exact hb
  · rename_i h0
    exact List.mem_filter.2 ⟨hr.resolve_left fun e => by simp [e] at h0, by simpa using hb⟩

/-- The topics bitmap holds a block that every non-wildcard position's bitmap holds, once one
position is not a wildcard: an intersection that became empty is only ever replaced. -/
theorem mem_getTopicsBitmap {chain : Chain} {start stop b : Nat} {topics : List (List Bytes32)}
    (hs : ∀ subtopics ∈ topics, subtopics ≠ [] → b ∈ subtopicBitmap chain subtopics start stop)
    (hne : ∃ subtopics ∈ topics, subtopics ≠ []) : b ∈ getTopicsBitmap chain topics start stop := by
  suffices ∀ init : Bitmap, (init = [] ∨ b ∈ init) → (∃ subtopics ∈ topics, subtopics ≠ []) ∨
      b ∈ init → b ∈ topics.foldl (topicsStep chain start stop) init from
    this [] (.inl rfl) (.inl hne)
  clear hne
  induction topics with
  | nil => intro init _ h; simpa using h
  | cons subtopics rest ih =>
    intro init hi h
    have hrest := fun s hs' => hs s (List.mem_cons_of_mem subtopics hs')
    rw [List.foldl_cons]
    by_cases he : subtopics = []
    · subst he
      refine topicsStep_nil chain start stop init ▸ ih hrest init hi (h.imp_left ?_)
      rintro ⟨s, hs', hne'⟩
      rcases List.mem_cons.1 hs' with rfl | hs'
      exacts [absurd rfl hne', ⟨s, hs', hne'⟩]
    · have hin := mem_topicsStep hi (hs subtopics (List.mem_cons_self _ _) he)
      exact ih hrest _ (.inr hin) (.inr hin)

/-- With every position a wildcard no position's bitmap is non-empty, and the topics bitmap stays
empty. -/
theorem getTopicsBitmap_of_wildcards {chain : Chain} {start stop : Nat}
    {topics : List (List Bytes32)} (hw : ∀ subtopics ∈ topics, subtopics = []) :
    getTopicsBitmap chain topics start stop = [] := by
  suffices ∀ init : Bitmap, topics.foldl (topicsStep chain start stop) init = init from this []
  induction topics with
  | nil => exact fun _ => rfl
  | cons subtopics rest ih =>
    intro init
    rw [List.foldl_cons, hw subtopics (List.mem_cons_self _ _), topicsStep_nil]
    exact ih (fun s hs => hw s (List.mem_cons_of_mem _ hs)) init

/-! ### The handler against the spec -/

section Spec

variable {chain : Chain} {filter : LogFilter} {start stop : Nat}

/-- With every canonical hash of the range non-zero, the reply is the selected blocks' filtered
logs. -/
theorem handleGetLogs_eq_flatMap (hh : ∀ b, start ≤ b → b ≤ stop → chain.canonicalHash b ≠ 0) :
    handleGetLogs chain filter start stop =
      (selectBlocks chain filter start stop).flatMap fun b => filterLogs (chain.logs b) filter := by
  have hsel : ∀ b ∈ selectBlocks chain filter start stop, chain.canonicalHash b ≠ 0 := by
    intro b hb
    rw [selectBlocks_eq] at hb
    have := mem_addRange_succ.1 (List.mem_filter.1 hb).1
    exact hh b this.1 this.2
  dsimp only [handleGetLogs]
  split
  · rename_i h0; rw [List.length_eq_zero.1 h0]; rfl
  · rw [collectLogs_eq hsel, List.nil_append]

/-- A block of the range holding a log the filter accepts passes both bitmap tests, once the
filter has no topics or a topic position that is not a wildcard. -/
theorem selected_of_accepted
    (ht : ∀ topics, filter.topics = some topics → ∃ subtopics ∈ topics, subtopics ≠ [])
    {b : Nat} (hb : start ≤ b ∧ b ≤ stop) {log : Log} (hl : log ∈ chain.logs b)
    (hp : filter.addresses.all (·.contains log.address) ∧
      filter.topics.all (topicsMatch · log.topics)) :
    filter.addresses.all (fun addresses => b ∈ getAddressesBitmap chain addresses start stop) ∧
      filter.topics.all (fun topics => b ∈ getTopicsBitmap chain topics start stop) := by
  constructor
  · rcases hadd : filter.addresses with _ | addresses
    · rfl
    · rw [hadd] at hp
      exact decide_eq_true (mem_getAddressesBitmap hb hl hp.1)
  · rcases htop : filter.topics with _ | topics
    · rfl
    · rw [htop] at hp
      exact decide_eq_true (mem_getTopicsBitmap (fun s hs hne => by
        obtain ⟨t, ht', hlt⟩ := topicsMatch_mem hp.2 hs hne
        exact mem_subtopicBitmap hb hl ht' hlt) (ht topics htop))

/-- A block of the range whose filtered logs are not empty passes both bitmap tests. -/
theorem selected_of_filterLogs
    (ht : ∀ topics, filter.topics = some topics → ∃ subtopics ∈ topics, subtopics ≠ [])
    {b : Nat} (hb : start ≤ b ∧ b ≤ stop) (hg : filterLogs (chain.logs b) filter ≠ []) :
    (filter.addresses.all (fun addresses => b ∈ getAddressesBitmap chain addresses start stop) &&
      filter.topics.all (fun topics => b ∈ getTopicsBitmap chain topics start stop)) = true := by
  obtain ⟨log, hl⟩ := List.exists_mem_of_ne_nil _ hg
  obtain ⟨hl, hp⟩ := List.mem_filter.1 hl
  simp only [Bool.and_eq_true] at hp ⊢
  exact selected_of_accepted ht hb hl hp

/-- Dropping the blocks of the range that fail the bitmap tests loses no log the filter keeps. -/
theorem flatMap_filter_selected
    (ht : ∀ topics, filter.topics = some topics → ∃ subtopics ∈ topics, subtopics ≠ [])
    {l : List Nat} (hl : ∀ b ∈ l, start ≤ b ∧ b ≤ stop) :
    (l.filter fun b =>
        filter.addresses.all (fun addresses => b ∈ getAddressesBitmap chain addresses start stop) &&
          filter.topics.all (fun topics => b ∈ getTopicsBitmap chain topics start stop)).flatMap
        (fun b => filterLogs (chain.logs b) filter) =
      l.flatMap fun b => filterLogs (chain.logs b) filter :=
  flatMap_filter_of fun b hb hg => selected_of_filterLogs ht (hl b hb) hg

end Spec

/-- **`eth_getLogs` replies with the filtered logs of every block of the range**, on exact
indexes and non-zero canonical hashes, whenever the filter has no topics or some topic position
that is not a wildcard. The range lies below `2^32 - 1`, where it is the handler's. -/
theorem handleGetLogs_eq_expected (chain : Chain) (filter : LogFilter)
    (start stop : Fin (2 ^ 32 - 1))
    (hh : ∀ b : Nat, start ≤ b → b ≤ stop → chain.canonicalHash b ≠ 0)
    (ht : ∀ topics, filter.topics = some topics → ∃ subtopics ∈ topics, subtopics ≠ []) :
    handleGetLogs chain filter start stop = expectedLogs chain filter start stop := by
  rw [handleGetLogs_eq_flatMap hh, selectBlocks_eq, expectedLogs]
  exact flatMap_filter_selected ht fun b hb => mem_addRange_succ.1 hb

theorem handleGetLogs_eq_expected_of_topic :
    let chain : Chain :=
      ⟨fun _ => 1, fun b => if b = 0 then [⟨[⟨0, [5], []⟩]⟩] else [⟨[⟨1, [6], []⟩]⟩]⟩
    let filter : LogFilter := ⟨none, some [[5]]⟩
    (∀ b : Nat, 0 ≤ b → b ≤ 1 → chain.canonicalHash b ≠ 0) ∧
      (∀ topics, filter.topics = some topics → ∃ subtopics ∈ topics, subtopics ≠ []) ∧
      handleGetLogs chain filter 0 1 = expectedLogs chain filter 0 1 :=
  have hh : ∀ b : Nat, 0 ≤ b → b ≤ 1 → Chain.canonicalHash ⟨fun _ => 1, fun b =>
      if b = 0 then [⟨[⟨0, [5], []⟩]⟩] else [⟨[⟨1, [6], []⟩]⟩]⟩ b ≠ 0 :=
    fun _ _ _ => (by decide : (1 : Bytes32) ≠ 0)
  have ht : ∀ topics, LogFilter.topics ⟨none, some [[5]]⟩ = some topics →
      ∃ subtopics ∈ topics, subtopics ≠ [] :=
    fun _ h => ⟨[5], Option.some.inj h ▸ List.mem_singleton_self _, List.cons_ne_nil _ _⟩
  ⟨hh, ht, handleGetLogs_eq_expected _ _ ⟨0, by decide⟩ ⟨1, by decide⟩ hh ht⟩

/-- **`eth_getLogs` never replies with a log the filter or the range excludes.** On every chain,
for every filter and every range below `2^32 - 1`, the reply is a sublist of the expected logs:
logs `filter_logs` keeps, from blocks of the range, in block order. -/
theorem handleGetLogs_sublist (chain : Chain) (filter : LogFilter)
    (start stop : Fin (2 ^ 32 - 1)) :
    (handleGetLogs chain filter start stop).Sublist (expectedLogs chain filter start stop) := by
  dsimp only [handleGetLogs]
  split
  · exact List.nil_sublist _
  · refine (collectLogs_sublist _ []).trans ?_
    rw [List.nil_append, selectBlocks_eq, expectedLogs]
    exact flatMap_filter_sublist _ _ _

/-- The reply is the filtered logs of the selected blocks, in increasing order, up to the first
selected block whose canonical hash is zero. -/
theorem handleGetLogs_eq_takeWhile (chain : Chain) (filter : LogFilter) (start stop : Nat) :
    handleGetLogs chain filter start stop =
      ((selectBlocks chain filter start stop).takeWhile fun b => chain.canonicalHash b ≠ 0).flatMap
        fun b => filterLogs (chain.logs b) filter := by
  dsimp only [handleGetLogs]
  split
  · rename_i h0; rw [List.length_eq_zero.1 h0]; rfl
  · rw [collectLogs_eq_takeWhile, List.nil_append]

/-- **A block without a canonical hash silently ends the reply.** On exact indexes, for a filter
with no topics or a topic position that is not a wildcard and a range below `2^32 - 1`: when the
first block `z` of the range whose canonical hash is zero holds a log the filter keeps, the reply
is the filtered logs of the blocks before `z` alone. The logs of `z` and of every later block are
dropped, and no error is reported. -/
theorem handleGetLogs_truncated (chain : Chain) (filter : LogFilter)
    (start stop : Fin (2 ^ 32 - 1))
    (ht : ∀ topics, filter.topics = some topics → ∃ subtopics ∈ topics, subtopics ≠ [])
    {z : Nat} (hz : start ≤ z ∧ z ≤ stop) (hz0 : chain.canonicalHash z = 0)
    (hbefore : ∀ b : Nat, start ≤ b → b < z → chain.canonicalHash b ≠ 0)
    (hlog : filterLogs (chain.logs z) filter ≠ []) :
    handleGetLogs chain filter start stop =
      (addRange start z).flatMap fun b => filterLogs (chain.logs b) filter := by
  rw [handleGetLogs_eq_takeWhile, selectBlocks_eq, addRange_eq_append hz.1 (Nat.lt_succ_of_le hz.2),
    List.filter_append, List.filter_cons, if_pos (selected_of_filterLogs ht hz hlog),
    List.takeWhile_append_of_pos fun b hb => decide_eq_true <|
      (mem_addRange.1 (List.mem_filter.1 hb).1).elim (hbefore b),
    List.takeWhile_cons_of_neg (by simpa using hz0), List.append_nil]
  exact flatMap_filter_selected ht fun b hb =>
    (mem_addRange.1 hb).imp_right fun h => h.le.trans hz.2

theorem handleGetLogs_truncated_at_one :
    let chain : Chain := ⟨fun b => if b = 1 then 0 else 1, fun _ => [⟨[⟨0, [5], []⟩]⟩]⟩
    let filter : LogFilter := ⟨none, some [[5]]⟩
    (∀ topics, filter.topics = some topics → ∃ subtopics ∈ topics, subtopics ≠ []) ∧
      ((0 : Nat) ≤ 1 ∧ 1 ≤ 2) ∧ chain.canonicalHash 1 = 0 ∧
      (∀ b : Nat, 0 ≤ b → b < 1 → chain.canonicalHash b ≠ 0) ∧
      filterLogs (chain.logs 1) filter ≠ [] ∧
      handleGetLogs chain filter 0 2 =
        (addRange 0 1).flatMap fun b => filterLogs (chain.logs b) filter :=
  have ht : ∀ topics, LogFilter.topics ⟨none, some [[5]]⟩ = some topics →
      ∃ subtopics ∈ topics, subtopics ≠ [] :=
    fun _ h => ⟨[5], Option.some.inj h ▸ List.mem_singleton_self _, List.cons_ne_nil _ _⟩
  have hb : ∀ b : Nat, 0 ≤ b → b < 1 → Chain.canonicalHash
      ⟨fun b => if b = 1 then 0 else 1, fun _ => [⟨[⟨0, [5], []⟩]⟩]⟩ b ≠ 0 := fun b _ h => by
    obtain rfl : b = 0 := by omega
    decide
  have hlog : filterLogs (Chain.logs ⟨fun b => if b = 1 then 0 else 1,
      fun _ => [⟨[⟨0, [5], []⟩]⟩]⟩ 1) ⟨none, some [[5]]⟩ ≠ [] := by decide
  ⟨ht, ⟨by decide, by decide⟩, rfl, hb, hlog,
    handleGetLogs_truncated _ _ ⟨0, by decide⟩ ⟨2, by decide⟩ ht ⟨by decide, by decide⟩ rfl hb hlog⟩

/-- **With only wildcard positions the reply is empty.** The topics bitmap stays empty, which the
handler reads as "no block", whatever the chain holds; `filter_logs` itself keeps every log with
enough topics. -/
theorem handleGetLogs_of_wildcards {chain : Chain} {filter : LogFilter} {start stop : Nat}
    {topics : List (List Bytes32)} (ht : filter.topics = some topics)
    (hw : ∀ subtopics ∈ topics, subtopics = []) : handleGetLogs chain filter start stop = [] := by
  have hsel : selectBlocks chain filter start stop = [] := by
    rw [selectBlocks_eq, List.filter_eq_nil_iff]
    intro b _
    simp [ht, getTopicsBitmap_of_wildcards hw]
  simp [handleGetLogs, hsel]

theorem handleGetLogs_of_wildcards_single :
    LogFilter.topics ⟨none, some [[]]⟩ = some [[]] ∧
    (∀ subtopics ∈ [([] : List Bytes32)], subtopics = []) ∧
    handleGetLogs ⟨fun _ => 1, fun _ => [⟨[⟨0, [5], []⟩]⟩]⟩ ⟨none, some [[]]⟩ 0 9 = [] :=
  have hw : ∀ subtopics ∈ [([] : List Bytes32)], subtopics = [] := fun _ h => List.mem_singleton.1 h
  ⟨rfl, hw, handleGetLogs_of_wildcards rfl hw⟩

/-- On the chain whose block `0` holds one log with the one topic `5`, a filter with one wildcard
position: `filter_logs` keeps the log, and the handler replies with no log. -/
theorem getLogs_drops_wildcard_match :
    handleGetLogs ⟨fun _ => 1, fun b => if b = 0 then [⟨[⟨0, [5], []⟩]⟩] else []⟩
      ⟨none, some [[]]⟩ 0 0 = [] ∧
    expectedLogs ⟨fun _ => 1, fun b => if b = 0 then [⟨[⟨0, [5], []⟩]⟩] else []⟩
      ⟨none, some [[]]⟩ 0 0 = [⟨0, [5], []⟩] := by
  decide

/-! ### The request -/

/-- The `Filter` decoded from `params[0]`: the block fields the range is resolved from, and what
`filter_logs` reads. -/
structure GetLogsFilter where
  blockHash : Option String
  fromBlock : Option Nat
  toBlock : Option Nat
  logFilter : LogFilter

/-- What `handle_eth_get_logs` reads of the request. -/
structure GetLogsRequest where
  /-- `params.size()`. -/
  paramsSize : Nat
  /-- `params.dump()`, the JSON text of the parameters. -/
  paramsDump : String
  /-- `params[0].get<Filter>()`. -/
  filter : GetLogsFilter

/-- The reads of the range resolution, all from outside this repository. -/
structure RangeReader where
  /-- `silkworm::from_hex`, then `to_bytes32`; `none` when the text is not hex. -/
  fromHex : String → Option Bytes32
  /-- `core::rawdb::read_header_number`. -/
  headerNumber : Bytes32 → Nat
  /-- `core::get_latest_block_number`. -/
  latestBlockNumber : Nat

/-- The reply: `make_json_content` with the logs, or `make_json_error` with a code and a
message. -/
inductive GetLogsReply
  | content (logs : List Log)
  | error (code : Nat) (message : String)
  deriving DecidableEq, Repr

/-- `handle_eth_get_logs`, from the request. -/
def handleEthGetLogs (reader : RangeReader) (chain : Chain) (request : GetLogsRequest) :
    GetLogsReply :=
  if request.paramsSize ≠ 1 then .error 100 ("invalid eth_getLogs params: " ++ request.paramsDump)
  else
    let filter := request.filter
    match filter.blockHash with
    | some blockHash =>
      match reader.fromHex blockHash with
      | none => .error 100 ("invalid eth_getLogs filter block_hash: " ++ blockHash)
      | some hash =>
        let blockNumber := reader.headerNumber hash
        .content (handleGetLogs chain filter.logFilter blockNumber blockNumber)
    | none =>
      .content (handleGetLogs chain filter.logFilter
        (filter.fromBlock.getD reader.latestBlockNumber)
        (filter.toBlock.getD reader.latestBlockNumber))

section Request

variable {reader : RangeReader} {chain : Chain} {request : GetLogsRequest}

/-- An error reply has code `100`, and its message names the check that failed: the parameter
count, with the parameters' JSON text, or the block hash, with its text. -/
theorem handleEthGetLogs_error {code : Nat} {message : String}
    (h : handleEthGetLogs reader chain request = .error code message) :
    code = 100 ∧
      (request.paramsSize ≠ 1 ∧ message = "invalid eth_getLogs params: " ++ request.paramsDump ∨
        request.paramsSize = 1 ∧ ∃ blockHash, request.filter.blockHash = some blockHash ∧
          reader.fromHex blockHash = none ∧
          message = "invalid eth_getLogs filter block_hash: " ++ blockHash) := by
  unfold handleEthGetLogs at h
  split_ifs at h with hp
  · cases h; exact ⟨rfl, .inl ⟨hp, rfl⟩⟩
  · rw [not_not] at hp
    dsimp only at h
    split at h
    · rename_i blockHash hb
      split at h
      · cases h; exact ⟨rfl, .inr ⟨hp, blockHash, hb, ‹_›, rfl⟩⟩
      · cases h
    · cases h

/-- A content reply is the block-range handler on the resolved range: the block the hash names,
or `[from_block, to_block]` with the latest block for each bound left out. -/
theorem handleEthGetLogs_content {logs : List Log}
    (h : handleEthGetLogs reader chain request = .content logs) :
    request.paramsSize = 1 ∧
      ((∃ blockHash hash, request.filter.blockHash = some blockHash ∧
          reader.fromHex blockHash = some hash ∧
          logs = handleGetLogs chain request.filter.logFilter (reader.headerNumber hash)
            (reader.headerNumber hash)) ∨
        request.filter.blockHash = none ∧
          logs = handleGetLogs chain request.filter.logFilter
            (request.filter.fromBlock.getD reader.latestBlockNumber)
            (request.filter.toBlock.getD reader.latestBlockNumber)) := by
  unfold handleEthGetLogs at h
  split_ifs at h with hp
  rw [not_not] at hp
  dsimp only at h
  split at h
  · rename_i blockHash hb
    split at h
    · cases h
    · cases h; exact ⟨hp, .inl ⟨blockHash, _, hb, ‹_›, rfl⟩⟩
  · cases h; exact ⟨hp, .inr ⟨‹_›, rfl⟩⟩

end Request

end Rpc

end EvmContract
