/-
Cruzbit/Checkpoints.lean

The checkpoint pins the history below it.  `checkBlock` compares a block with
the checkpoint at the height the block itself declares, and nothing else.
But heights go up by one along `Previous`, and every known block has a line
of known blocks down to genesis.  So every known block at or above the
checkpoint has it as the ancestor at that height (`Admitted.checkpoint_mem`),
and two main chains that reach it agree from there on down
(`checkpoints_pin_history`).

`Pinned` is a chain past the checkpoint: its hash gives the checkpoint's ID to
the block at that height, and its blocks come so slowly that no retarget
changes the target.  It has two branches above height 28716.
-/
import Cruzbit.Convergence
import Cruzbit.Retarget

namespace Cruzbit

open Chain Lineage Word Encoding Accounts

section Checkpoints

variable {crypto : Crypto} {prune : Bool} {P : Transaction → Prop} {Q : Processor → Prop}
  {s : Processor} {c d : Chain} {K : Set BlockID} {x y : BlockID × Block}
  {blockStore : BlockStorage} {id : BlockID}

/-! ### Lines through the checkpoint -/

/-- A block at the height of a checkpoint is the checkpoint. -/
theorem eq_checkpoint {height : Int} {checkpointID : BlockID}
    (h : checkpointCheck id height = .ok ()) (hc : checkpoints height = some checkpointID) :
    id = checkpointID := by
  rw [checkpointCheck, hc] at h
  simpa using failIf_eq_ok.mp h

theorem Admitted.eq_checkpoint (h : Admitted crypto P Q c) (hx : x ∈ c) {checkpointID : BlockID}
    (hc : checkpoints x.2.header.height = some checkpointID) : x.1 = checkpointID := by
  induction h with
  | genesis =>
    obtain rfl := List.mem_singleton.mp hx
    have hnone : checkpoints (genesisEntry crypto).2.header.height = none := rfl
    rw [hnone] at hc
    exact absurd hc (by simp)
  | cons s _ _ hy ih =>
    rcases List.mem_cons.mp hx with rfl | hx
    · obtain ⟨now, hok⟩ := hy.checked
      exact Cruzbit.eq_checkpoint (checkBlock_ok_iff.mp hok).checkpoint hc
    · exact ih hx

/-- A line has a block at each height up to that of its newest block. -/
theorem BlockLine.exists_height (h : BlockLine crypto blockStore (x :: c)) {n : Nat}
    (hn : (n : Int) ≤ x.2.header.height) :
    ∃ d y e, x :: c = d ++ y :: e ∧ e.length = n ∧ y.2.header.height = (n : Int) := by
  have hheight := BlockLine.height_eq h
  obtain ⟨y, hy⟩ : ∃ y, blockAt (x :: c) n = some y := by
    have hlt : n < (x :: c).reverse.length := by
      simp only [List.length_reverse, List.length_cons]
      omega
    exact ⟨_, List.getElem?_eq_getElem hlt⟩
  obtain ⟨d, e, hsplit, hlen⟩ := exists_append_of_blockAt hy
  refine ⟨d, y, e, hsplit, hlen, ?_⟩
  rw [BlockLine.height_of_append (hsplit ▸ h), hlen]

/-- **The line of a known block at or above the checkpoint passes through it.** -/
theorem Admitted.checkpoint_mem (h : Admitted crypto P Q (x :: c))
    (hst : Stored blockStore (x :: c)) (hheight : latestCheckpointHeight ≤ x.2.header.height) :
    ∃ d y e, x :: c = d ++ y :: e ∧ (e.length : Int) = latestCheckpointHeight ∧
      y.2.header.height = latestCheckpointHeight ∧ checkpoints latestCheckpointHeight = some y.1 := by
  have hnat : ((latestCheckpointHeight.toNat : Nat) : Int) = latestCheckpointHeight := rfl
  obtain ⟨d, y, e, hsplit, hlen, hy⟩ := (h.line hst).exists_height (hnat ▸ hheight)
  rw [hnat] at hy
  refine ⟨d, y, e, hsplit, by rw [hlen, hnat], hy, ?_⟩
  obtain ⟨checkpointID, hc⟩ : ∃ checkpointID, checkpoints latestCheckpointHeight =
      some checkpointID := ⟨_, rfl⟩
  rw [hc, h.eq_checkpoint (hsplit ▸ List.mem_append_right _ List.mem_cons_self) (hy ▸ hc)]

/-! ### Storage -/

/-- The entry of a known block is never written again. -/
theorem Settled.step_stored (h : Settled crypto prune (fun _ => True) Q s c K) (hQ : Q s)
    (call : Call) (hid : id ∈ K) :
    (s.step crypto prune call).1.blockStore[id]? = s.blockStore[id]? := by
  rcases h.step_blockStore hQ call with hstore | ⟨b, now, source, -, -, hunknown, hstore⟩
  · rw [hstore]
  · rw [hstore, BlockStorage.get_store, if_neg]
    rintro rfl
    exact hunknown hid

theorem Reachable.carryOut_stored (h : Reachable crypto prune s) (hid : s.ledger.Known id)
    (calls : List Call) : (s.carryOut crypto prune calls).blockStore[id]? = s.blockStore[id]? := by
  induction calls generalizing s with
  | nil => rfl
  | cons call calls ih =>
    obtain ⟨c, K, hs⟩ := h.settled
    have hstep := hs.step_stored h call ((hs.describes.known_iff id).mp hid)
    rw [← hstep]
    exact ih (.call call h trivial) (hs.step_known h (vouches_true call) hid)

/-! ### Main chains -/

/-- The tip is at or above the checkpoint. -/
def Processor.PastCheckpoint (s : Processor) : Prop :=
  ∃ tip height, s.ledger.chainTip = some (tip, height) ∧ latestCheckpointHeight ≤ height

/-- A main chain past the checkpoint, cut there. -/
theorem Placed.cut (h : Placed crypto prune P Q s c K) (hpast : s.PastCheckpoint) :
    ∃ d y e, c = d ++ y :: e ∧ (e.length : Int) = latestCheckpointHeight ∧
      checkpoints latestCheckpointHeight = some y.1 := by
  obtain ⟨tip, height, htip, hle⟩ := hpast
  obtain ⟨t, c, rfl⟩ := List.exists_cons_of_ne_nil h.admitted.ne_nil
  rw [h.describes.chainTip] at htip
  have hheight : t.2.header.height = height := by
    have := congrArg Prod.snd (Option.some.inj htip)
    rw [BlockLine.height_eq (h.admitted.line h.stored)]
    simpa using this
  obtain ⟨d, y, e, hsplit, hlen, -, hy⟩ := h.admitted.checkpoint_mem h.stored (hheight ▸ hle)
  exact ⟨d, y, e, hsplit, hlen, hy⟩

/-- The height index below a block of the main chain is that of the line below
it. -/
theorem Placed.heightIndex_of_append (h : Placed crypto prune P Q s (d ++ y :: c) K) {height : Int}
    (hle : height ≤ c.length) :
    s.ledger.getBlockIDForHeight height = some id ↔
      ∃ n : Nat, height = n ∧ (blockAt (y :: c) n).map Prod.fst = some id := by
  obtain ⟨t, e, ht⟩ := exists_head_append d y c
  have hindexes : s.ledger.Indexes (d ++ y :: c) := by
    rw [ht] at h ⊢
    exact h.mainPath.indexes
  refine (hindexes height id).trans (exists_congr fun n => and_congr_right fun hn => ?_)
  rw [blockAt_append (by rw [List.length_cons]; omega)]

end Checkpoints

/-! ### A chain past the checkpoint -/

namespace Pinned

/-- Up to height 28716 the blocks are more than ten minutes apart, so the target
stays the initial one.  There the chain forks, and both branches go on faster,
each at its own pace. -/
def time : Bool → Nat → Int
  | false, n => genesisBlock.header.time + 700 * (min n 28716 : Nat) + 300 * (n - 28716 : Nat)
  | true, n => genesisBlock.header.time + 700 * (min n 28716 : Nat) + 401 * (n - 28716 : Nat)

def checkpointID : BlockID := 0x000000000000b83e78ec29355d098256936389010d7450a288763ed4f191069e

/-- The ID of a block is its time, but that of the checkpoint. -/
def blockID (side : Bool) (n : Nat) : BlockID :=
  if n = 18144 then checkpointID else BitVec.ofNat 256 (time side n).natAbs

def coinbase (side : Bool) (n : Nat) : Transaction :=
  { genesisCoinbase with
    time := time side n - 1
    series := (n : Int).tdiv blocksUntilNewSeries + 1 }

def block (side : Bool) (n : Nat) : Block where
  header :=
    { genesisBlock.header with
      previous := blockID side (n - 1)
      time := time side n
      chainWork := BitVec.ofNat 256 (0x100010001 * (n + 1))
      nonce := 0
      height := n
      transactionCount := 1 }
  transactions := [coinbase side n]

/-- The hash of the sample chain, but for the header of the checkpoint. -/
@[irreducible] def sum256 (text : List UInt8) : BitVec 256 :=
  if text = (block false 18144).header.json then checkpointID else Sample.sum256 text

def crypto : Crypto := ⟨sum256, fun _ _ _ => true⟩

def entry (side : Bool) : Nat → BlockID × Block
  | 0 => genesisEntry crypto
  | n + 1 => ((block side (n + 1)).id crypto, block side (n + 1))

/-- The first blocks of the chain, newest first. -/
def chain (side : Bool) (n : Nat) : Chain := ((List.range (n + 1)).map (entry side)).reverse

variable {prune side : Bool} {n : Nat}

/-! #### Times -/

theorem time_bounds (side : Bool) (hn : n ≤ 28861) :
    1561173156 ≤ time side n ∧ time side n < 2 ^ 31 := by
  cases side <;> simp only [time, genesisBlock] <;> omega

theorem time_of_le (side : Bool) (hn : n ≤ 28716) :
    time side n = genesisBlock.header.time + 700 * n := by
  cases side <;> simp only [time] <;> omega

theorem time_lt (side : Bool) {m : Nat} (h : m < n) : time side m + 300 ≤ time side n := by
  cases side <;> simp only [time] <;> omega

theorem time_strictMono (side : Bool) : StrictMono (time side) := fun m n h => by
  have := time_lt side h
  omega

/-- The two branches have no time in common. -/
theorem time_ne {m : Nat} (hm : m ≤ 28861) (hn : n ≤ 28861) (h : time false m = time true n) :
    m = n ∧ m ≤ 28716 := by
  rcases le_or_gt m 28716 with hm' | hm' <;> rcases le_or_gt n 28716 with hn' | hn'
  · rw [time_of_le false hm', time_of_le true hn'] at h
    omega
  · have := time_lt true hn'
    rw [time_of_le true le_rfl] at this
    rw [time_of_le false hm'] at h
    omega
  · have := time_lt false hm'
    rw [time_of_le false le_rfl] at this
    rw [time_of_le true hn'] at h
    omega
  · obtain ⟨a, rfl⟩ := Nat.exists_eq_add_of_le hm'.le
    obtain ⟨b, rfl⟩ := Nat.exists_eq_add_of_le hn'.le
    simp only [time, Nat.add_sub_cancel_left, min_eq_right hm'.le, min_eq_right hn'.le] at h
    omega

/-- A block shares its time with no other, on either branch. -/
theorem time_inj {side' : Bool} {m : Nat} (hm : m ≤ 28861) (hn : n ≤ 28861)
    (h : time side m = time side' n) : m = n ∧ (m ≤ 28716 ∨ side = side') := by
  cases side <;> cases side'
  · exact ⟨(time_strictMono false).injective h, .inr rfl⟩
  · exact (time_ne hm hn h).imp_right .inl
  · obtain ⟨rfl, hle⟩ := time_ne hn hm h.symm
    exact ⟨rfl, .inl hle⟩
  · exact ⟨(time_strictMono true).injective h, .inr rfl⟩

theorem time_eq_checkpoint (hn : n ≤ 28861) (h : time side n = time false 18144) : n = 18144 :=
  (time_inj hn (by omega) h).1

/-! #### The hash -/

theorem checkpoint_json :
    Sample.sum256 (block false 18144).header.json =
      BitVec.ofNat 256 (time false 18144).natAbs :=
  Sample.header_id (show 0 ≤ time false 18144 by decide)

theorem sum256_eq {text : List UInt8}
    (h : Sample.sum256 text ≠ BitVec.ofNat 256 (time false 18144).natAbs) :
    sum256 text = Sample.sum256 text := by
  rw [sum256, if_neg]
  rintro rfl
  exact h checkpoint_json

/-- A text with a time in it has the time for its hash. -/
theorem sum256_of_time {text : List UInt8} {x : Int} (h₀ : 0 ≤ x) (hx : x < 2 ^ 31)
    (hne : x ≠ time false 18144) (h : Sample.sum256 text = BitVec.ofNat 256 x.natAbs) :
    sum256 text = BitVec.ofNat 256 x.natAbs := by
  rw [sum256_eq, h]
  rw [h]
  intro heq
  have hbounds := time_bounds false (n := 18144) (by omega)
  have := Sample.ofNat_inj (by omega) (by omega) heq
  omega

theorem transaction_id {tx : Transaction} (h₀ : 0 ≤ tx.time) (hx : tx.time < 2 ^ 31)
    (hne : tx.time ≠ time false 18144) : tx.id crypto = BitVec.ofNat 256 tx.time.natAbs :=
  sum256_of_time h₀ hx hne (Sample.transaction_id h₀)

theorem header_id {h : BlockHeader} (h₀ : 0 ≤ h.time) (hx : h.time < 2 ^ 31)
    (hne : h.time ≠ time false 18144) : h.id crypto = BitVec.ofNat 256 h.time.natAbs :=
  sum256_of_time h₀ hx hne (Sample.header_id h₀)

/-- Up to the fork the branches are one. -/
theorem block_shared (side : Bool) (hn : n ≤ 28716) : block side n = block false n := by
  have htime : time side n = time false n := by rw [time_of_le side hn, time_of_le false hn]
  have hprev : blockID side (n - 1) = blockID false (n - 1) := by
    rw [blockID, blockID, time_of_le side (by omega), time_of_le false (by omega)]
  simp only [block, coinbase, htime, hprev]

theorem block_id (side : Bool) (hn : n ≤ 28861) : (block side n).id crypto = blockID side n := by
  have hbounds := time_bounds side hn
  unfold blockID
  split_ifs with h
  · subst h
    rw [block_shared side (by omega)]
    show sum256 (block false 18144).header.json = checkpointID
    rw [sum256, if_pos rfl]
  · refine header_id (by show 0 ≤ time side n; omega) (by show time side n < _; omega) ?_
    exact fun heq => h (time_eq_checkpoint hn heq)

theorem genesis_id (side : Bool) : genesisBlock.id crypto = blockID side 0 := by
  have hid : genesisBlock.id crypto = BitVec.ofNat 256 genesisBlock.header.time.natAbs :=
    header_id (by decide) (by decide) (by decide)
  rw [hid, blockID, if_neg (by decide), time_of_le side (by omega)]
  simp

/-! #### The blocks -/

theorem entry_fst (side : Bool) (hn : n ≤ 28861) : (entry side n).1 = blockID side n := by
  cases n with
  | zero => exact genesis_id side
  | succ n => exact block_id side hn

theorem entry_id (side : Bool) (n : Nat) : (entry side n).1 = (entry side n).2.id crypto := by
  cases n <;> rfl

theorem entry_time (side : Bool) (n : Nat) : (entry side n).2.header.time = time side n := by
  cases n with
  | zero => cases side <;> rfl
  | succ n => rfl

theorem entry_target (side : Bool) (n : Nat) :
    (entry side n).2.header.target = genesisBlock.header.target := by
  cases n <;> rfl

theorem entry_height (side : Bool) (n : Nat) : (entry side n).2.header.height = n := by
  cases n <;> rfl

theorem entry_chainWork (side : Bool) (n : Nat) :
    (entry side n).2.header.chainWork = BitVec.ofNat 256 (0x100010001 * (n + 1)) := by
  cases n <;> rfl

theorem chain_succ (side : Bool) (n : Nat) :
    chain side (n + 1) = entry side (n + 1) :: chain side n := by
  rw [chain, List.range_succ, List.map_append, List.reverse_append]
  rfl

theorem chain_eq_cons (side : Bool) (n : Nat) :
    chain side n = entry side n :: (chain side n).tail := by
  cases n with
  | zero => rfl
  | succ n => rw [chain_succ, List.tail_cons]

theorem chain_length (side : Bool) (n : Nat) : (chain side n).length = n + 1 := by
  simp [chain]

theorem mem_chain {x : BlockID × Block} : x ∈ chain side n ↔ ∃ k ≤ n, entry side k = x := by
  simp [chain]

theorem chain_getElem? (side : Bool) {k : Nat} (hk : k ≤ n) :
    (chain side n)[k]? = some (entry side (n - k)) := by
  have hlen : ((List.range (n + 1)).map (entry side)).length = n + 1 := by simp
  rw [chain, List.getElem?_reverse (by omega), hlen, List.getElem?_map,
    List.getElem?_range (by omega)]
  rfl

theorem blockAt_chain {k : Nat} (hk : k ≤ n) : blockAt (chain side n) k = some (entry side k) := by
  rw [blockAt, chain, List.reverse_reverse, List.getElem?_map, List.getElem?_range (by omega)]
  rfl

/-- No two blocks have the same ID. -/
theorem blockID_inj {side' : Bool} {m : Nat} (hm : m ≤ 28861) (hn : n ≤ 28861)
    (h : blockID side m = blockID side' n) : m = n ∧ (m ≤ 28716 ∨ side = side') := by
  have hm' := time_bounds side hm
  have hn' := time_bounds side' hn
  have hbig {x : Int} (hx : 0 ≤ x ∧ x < 2 ^ 31) : checkpointID ≠ BitVec.ofNat 256 x.natAbs := by
    intro heq
    have := congrArg BitVec.toNat heq
    rw [BitVec.toNat_ofNat, Nat.mod_eq_of_lt (by omega)] at this
    have hlarge : 2 ^ 53 ≤ checkpointID.toNat := by decide
    omega
  unfold blockID at h
  split_ifs at h with h₁ h₂ h₂
  · omega
  · exact absurd h (hbig (by omega))
  · exact absurd h.symm (hbig (by omega))
  · have := Sample.ofNat_inj (by omega) (by omega) h
    exact time_inj hm hn (by omega)

theorem coinbase_checked (side : Bool) (hn : n ≤ 28861) : (coinbase side n).Checked := by
  have htime := time_bounds side hn
  have hdiv : (n : Int).tdiv blocksUntilNewSeries = n / 1008 := by
    rw [Int.tdiv_eq_ediv_of_nonneg (by omega), blocksUntilNewSeries]
  refine { genesisCoinbase_checked with time_range := ?_, series_range := ?_ }
  · simp only [coinbase, maxNumber]
    omega
  · simp only [coinbase, hdiv, maxNumber]
    omega

/-- A coinbase is not made at the time of the checkpoint. -/
theorem coinbase_time (side : Bool) (hn : n ≤ 28861) :
    0 ≤ (coinbase side n).time ∧ (coinbase side n).time < 2 ^ 31 ∧
      (coinbase side n).time ≠ time false 18144 := by
  have htime := time_bounds side hn
  simp only [coinbase]
  refine ⟨by omega, by omega, ?_⟩
  cases side <;> simp only [time] <;> omega

theorem coinbase_id (side : Bool) (hn : n ≤ 28861) :
    (coinbase side n).id crypto = BitVec.ofNat 256 (time side n - 1).natAbs := by
  obtain ⟨h₀, hx, hne⟩ := coinbase_time side hn
  exact transaction_id h₀ hx hne

theorem computeHashListRoot_eq {tx : Transaction} (h₀ : 0 ≤ tx.time) (hx : tx.time < 2 ^ 31)
    (hne : tx.time ≠ time false 18144) :
    computeHashListRoot crypto [tx] = .ok genesisBlock.header.hashListRoot := by
  rw [computeHashListRoot, addCoinbaseToHashListRoot, transaction_id h₀ hx hne]
  have hroot (l : List UInt8) : Sample.sum256 (idBytes (BitVec.ofNat 256 tx.time.natAbs) ++ l) =
      genesisBlock.header.hashListRoot := Sample.sum256_idBytes (by omega) l
  refine congrArg Except.ok ((sum256_eq ?_).trans (hroot _))
  rw [hroot]
  intro heq
  have hbounds := time_bounds false (n := 18144) (by omega)
  have := congrArg BitVec.toNat heq
  rw [BitVec.toNat_ofNat, Nat.mod_eq_of_lt (by omega)] at this
  have hlarge : 2 ^ 53 ≤ genesisBlock.header.hashListRoot.toNat := by decide
  omega

theorem blockID_le_target (side : Bool) (hn : n ≤ 28861) :
    (blockID side n).toNat ≤ genesisBlock.header.target.toNat := by
  have htime := time_bounds side hn
  unfold blockID
  split_ifs with h
  · decide
  · rw [BitVec.toNat_ofNat, Nat.mod_eq_of_lt (by omega)]
    have : 2 ^ 53 ≤ genesisBlock.header.target.toNat := by decide
    omega

theorem checkpointCheck_block (side : Bool) (n : Nat) :
    checkpointCheck (blockID side n) n = .ok () := by
  by_cases h : n = 18144
  · rw [h, blockID, if_pos rfl]
    decide
  · rw [checkpointCheck, checkpoints, if_neg]
    simp only [latestCheckpointHeight]
    omega

theorem checkBlock_block (side : Bool) (hn : n ≤ 28861) :
    checkBlock crypto (blockID side n) (block side n) (time side n) = .ok () := by
  have htime := time_bounds side hn
  obtain ⟨max, hmax, hle⟩ := le_computeMaxTransactionsPerBlock (Int.natCast_nonneg n)
  have hmany : 10000 ≤ max := hle
  have hroot : computeHashListRoot crypto [coinbase side n] =
      .ok genesisBlock.header.hashListRoot := by
    obtain ⟨h₀, hx, hne⟩ := coinbase_time side hn
    exact computeHashListRoot_eq h₀ hx hne
  have hfuture : int64 (time side n + maxFutureSeconds) = time side n + maxFutureSeconds :=
    int64_of_fits (by simp only [Fits64, maxFutureSeconds]; omega)
  refine checkBlock_ok_iff.mpr ⟨?_, ?_, blockID_le_target side hn, ?_, ?_, ?_, ?_, ?_,
    ⟨max, hmax, ?_⟩, ?_, ?_, hroot⟩
  · simp only [block, maxNumber]
    omega
  · rw [hfuture]
    simp only [block, maxFutureSeconds]
    omega
  · simp [block, maxNumber]
  · simp only [block, maxNumber]
    omega
  · exact checkpointCheck_block side n
  · simp [block]
  · exact ⟨coinbase side n, [], rfl, rfl, fun tx htx => absurd htx List.not_mem_nil⟩
  · simp only [block, List.length_singleton]
    omega
  · intro tx htx
    obtain rfl := List.mem_singleton.mp htx
    exact coinbase_checked side hn
  · exact List.nodup_singleton _

theorem checkBlock_genesis :
    checkBlock crypto (genesisBlock.id crypto) genesisBlock genesisBlock.header.time = .ok () := by
  have hroot : computeHashListRoot crypto [genesisCoinbase] =
      .ok genesisBlock.header.hashListRoot :=
    computeHashListRoot_eq (by decide) (by decide) (by decide)
  rw [genesis_id false]
  unfold checkBlock
  simp only [show genesisBlock.transactions = [genesisCoinbase] from rfl, hroot,
    checkTransactions, Transaction.checkTransaction_ok_iff.mpr genesisCoinbase_checked]
  decide +kernel

theorem chain_nodup (side : Bool) (hn : n ≤ 28861) : (chain side n).ids.Nodup := by
  induction n with
  | zero => exact List.nodup_singleton _
  | succ n ih =>
    rw [chain_succ]
    refine List.nodup_cons.mpr ⟨fun hmem => ?_, ih (by omega)⟩
    obtain ⟨x, hx, hid⟩ := List.mem_map.mp hmem
    obtain ⟨k, hk, rfl⟩ := mem_chain.mp hx
    rw [entry_fst side (by omega), entry_fst side hn] at hid
    have := (blockID_inj (by omega) hn hid).1
    omega

/-! #### Validity -/

/-- An interval takes more than two weeks, so the target would grow. -/
theorem retarget_eq {span : Int} (h : retargetTime ≤ span) :
    setBigInt (if (genesisBlock.header.target.toNat : Int) *
        clamp (retargetTime / 4) (retargetTime * 4) span / retargetTime > initialTarget
      then initialTarget else (genesisBlock.header.target.toNat : Int) *
        clamp (retargetTime / 4) (retargetTime * 4) span / retargetTime) =
      .ok genesisBlock.header.target := by
  have hclamp : retargetTime ≤ clamp (retargetTime / 4) (retargetTime * 4) span := by
    unfold clamp
    split_ifs <;> simp only [retargetTime] at * <;> omega
  have htarget : genesisBlock.header.target.toNat = initialTarget := by decide
  rw [htarget]
  generalize clamp (retargetTime / 4) (retargetTime * 4) span = x at *
  have hle : (initialTarget : Int) ≤ initialTarget * x / retargetTime := by
    rw [Int.le_ediv_iff_mul_le (by decide)]
    exact mul_le_mul_of_nonneg_left hclamp (by decide)
  have hif : (if initialTarget * x / retargetTime > initialTarget then (initialTarget : Int) else
      initialTarget * x / retargetTime) = initialTarget := by
    split_ifs with hgt
    · rfl
    · omega
  rw [hif]
  decide

theorem walkHeaders_chain {blockStore : BlockStorage}
    (hline : BlockLine crypto blockStore (chain side n)) {k : Nat} (hk : k ≤ n) :
    walkHeaders blockStore k (entry side n).2.header = .ok (entry side (n - k)).2.header := by
  have hget := chain_getElem? side hk
  rw [chain_eq_cons] at hline hget
  obtain ⟨hlen, hk'⟩ := List.getElem?_eq_some_iff.mp hget
  rw [hline.walkHeaders_getElem hlen, hk']

/-- The last interval ends before the fork. -/
theorem ancestorTarget_eq (hn : n < 28861)
    (h : Ancestry crypto prune ancestorTarget (chain side n)) :
    ancestorTarget (chain side n) = .ok genesisBlock.header.target := by
  have hcompute : ancestorTarget (chain side n) =
      computeTargetBitcoin (entry side n).2.header (storageOf (chain side n)) := by
    rw [chain_eq_cons]
    rfl
  have hline := h.line (stored_storageOf (chain_nodup side (by omega)))
  rw [hcompute, computeTargetBitcoin, entry_height, entry_target, entry_time]
  split_ifs with hinterval hfirst
  · rfl
  · -- the interval is counted from its last block but one
    rw [Int.tmod_eq_emod_of_nonneg (by omega)] at hinterval
    simp only [retargetInterval] at hinterval hfirst
    refine Res.bind_eq_ok.mpr ⟨_, walkHeaders_chain hline (k := 2016) (by omega), retarget_eq ?_⟩
    rw [entry_time, time_of_le side (by omega), time_of_le side (by omega)]
    simp only [retargetTime]
    omega
  · simp only [retargetInterval] at hfirst
    refine Res.bind_eq_ok.mpr ⟨_, walkHeaders_chain hline (k := 2015) (by omega), retarget_eq ?_⟩
    rw [entry_time, time_of_le side (by omega), time_of_le side (by omega)]
    simp only [retargetTime]
    omega

/-- Only coinbases mature, and they take from nobody. -/
theorem covered (side : Bool) (n : Nat) : Covered (balances (chain side n))
    ((dues (chain side n) (block side (n + 1))).map Transaction.payment) := by
  refine covered_of_payer_none (fun p hp => ?_) _
  obtain ⟨tx, htx, rfl⟩ := List.mem_map.mp hp
  have hdues : dues (chain side n) (block side (n + 1)) = (matured (chain side n)).toList :=
    List.append_nil _
  rw [hdues, Option.mem_toList] at htx
  obtain ⟨x, hx, htx⟩ := Option.bind_eq_some_iff.mp htx
  obtain ⟨k, hk, rfl⟩ := mem_chain.mp (List.mem_of_mem_drop (List.mem_of_mem_head? hx))
  cases k with
  | zero =>
    obtain rfl : genesisCoinbase = tx := Option.some.inj htx
    rfl
  | succ k =>
    obtain rfl : coinbase side (k + 1) = tx := Option.some.inj htx
    rfl

theorem mem_txIDs_entry (hn : n ≤ 28861) {id : TransactionID}
    (h : id ∈ (entry side n).2.txIDs crypto) :
    ∃ t : Int, (time side n - 30 ≤ t ∧ t ≤ time side n - 1) ∧ id = BitVec.ofNat 256 t.natAbs := by
  cases n with
  | zero =>
    obtain rfl : id = genesisCoinbase.id crypto := List.mem_singleton.mp h
    refine ⟨_, ?_, transaction_id (by decide) (by decide) (by decide)⟩
    rw [time_of_le side (by omega)]
    decide
  | succ n =>
    obtain rfl : id = (coinbase side (n + 1)).id crypto := List.mem_singleton.mp h
    exact ⟨_, by omega, coinbase_id side hn⟩

theorem unconfirmed (hn : n + 1 ≤ 28861) {x : BlockID × Block} (hx : x ∈ chain side n) :
    ∀ id ∈ (entry side (n + 1)).2.txIDs crypto, id ∉ x.2.txIDs crypto := by
  obtain ⟨k, hk, rfl⟩ := mem_chain.mp hx
  intro id hid hid'
  obtain ⟨t, ht, rfl⟩ := mem_txIDs_entry hn hid
  obtain ⟨t', ht', heq⟩ := mem_txIDs_entry (by omega) hid'
  have h₁ := time_bounds side hn
  have h₂ := time_bounds side (n := k) (by omega)
  have h₃ := time_lt side (show k < n + 1 by omega)
  have := Sample.ofNat_inj (by omega) (by omega) heq
  omega

theorem follows (hn : n + 1 ≤ 28861) (h : Ancestry crypto prune ancestorTarget (chain side n)) :
    Follows crypto prune ancestorTarget (chain side n) (entry side (n + 1)) := by
  refine ⟨⟨rfl, ?_, ?_, ?_, ?_, ?_, ?_⟩, fun y hy => unconfirmed hn (Table.mem_of_mem_window hy),
    covered side n⟩
  · rw [entry_fst side hn]
    exact ⟨_, checkBlock_block side hn⟩
  · intro p hp
    obtain rfl : entry side n = p := by
      rw [chain_eq_cons] at hp
      exact Option.some.inj hp
    refine ⟨(entry_fst side (by omega)).symm, ?_, ?_⟩
    · rw [entry_height, entry_height]
      push_cast
      rfl
    · rw [entry_target, entry_chainWork, entry_chainWork]
      exact Sample.computeChainWork_eq (by omega)
  · rw [entry_target]
    exact ancestorTarget_eq (by omega) h
  · rw [entry_time]
    have htime := time_bounds side (n := n) (by omega)
    have hnext := time_lt side (show n < n + 1 by omega)
    refine lt_of_le_of_lt (medianTime_le (by omega : 0 ≤ time side n) fun x hx => ?_) (by omega)
    obtain ⟨k, hk, rfl⟩ := mem_chain.mp hx
    rw [entry_time]
    exact (time_strictMono side).monotone hk
  · intro tx htx
    obtain rfl : tx = coinbase side (n + 1) := List.mem_singleton.mp htx
    have hcb : (coinbase side (n + 1)).isCoinbase = true := rfl
    refine ⟨?_, ?_, ?_, ?_⟩
    · rw [checkTransactionSeries, if_pos hcb]
      exact decide_eq_true rfl
    all_goals exact fun h => absurd (h.symm.trans hcb) Bool.false_ne_true
  · have hreward : blockCreationReward (n + 1 : Nat) = initialCoinbaseReward := by
      rw [blockCreationReward_natCast, Nat.div_eq_of_lt (by omega)]
      decide
    rw [entry_height, hreward]
    rfl

theorem ancestry (prune side : Bool) (hn : n ≤ 28861) :
    Ancestry crypto prune ancestorTarget (chain side n) := by
  induction n with
  | zero => exact .genesis
  | succ n ih =>
    have hn' : n ≤ 28861 := by omega
    rw [chain_succ]
    exact .cons (ih hn') (follows hn (ih hn'))

/-! #### The run -/

/-- The processor after the first `n` blocks. -/
def state (prune : Bool) (n : Nat) : Processor := (chain false n).deliver crypto prune

/-- The call delivers a block of the chain. -/
def Delivers (call : Call) : Prop := ∃ side, ∃ n ≤ 28861, call = (entry side n).2.call

theorem blockID_ne_null (side : Bool) (hn : n ≤ 28861) :
    blockID side n ≠ genesisBlock.header.previous := by
  have htime := time_bounds side hn
  unfold blockID
  split_ifs with h
  · decide
  · intro heq
    have := Sample.ofNat_inj (b := 0) (by omega) (by omega) heq
    omega

theorem Delivers.ne_null {b : Block} {now : Int} {source : String}
    (h : Delivers (.block b now source)) : b.id crypto ≠ genesisBlock.header.previous := by
  obtain ⟨side, n, hn, hcall⟩ := h
  obtain rfl : b = (entry side n).2 := by
    injection hcall
  rw [← entry_id, entry_fst side hn]
  exact blockID_ne_null side hn

theorem genesis_ne_null : genesisBlock.id crypto ≠ genesisBlock.header.previous := by
  rw [genesis_id false]
  exact blockID_ne_null false (by omega)

/-- The chain is delivered, each block at its own time. -/
theorem settled (prune : Bool) (hn : n ≤ 28861) :
    Run crypto prune Delivers (state prune n) ∧
      Settled crypto prune (fun _ => True) (Run crypto prune Delivers) (state prune n)
        (chain false n) {id | id ∈ (chain false n).ids} ∧
      ∀ x ∈ chain false n, (state prune n).blockStore[x.1]? = some ⟨x.2, x.2.header.time⟩ := by
  refine (ancestry prune false hn).settled_deliver checkBlock_genesis (chain_nodup false hn) ?_ ?_
    (fun _ _ _ h => h.ne_null) genesis_ne_null
  · intro x hx
    obtain ⟨k, hk, rfl⟩ := mem_chain.mp hx
    exact ⟨false, k, by omega, rfl⟩
  · rw [chain_length]
    simp only [bitcoinCashRetargetAlgorithmHeight]
    omega

theorem reachable (prune : Bool) (hn : n ≤ 28861) : Reachable crypto prune (state prune n) :=
  (settled prune hn).1.mono fun _ _ => trivial

theorem pastCheckpoint (prune : Bool) (hn : n ≤ 28861) (hpast : latestCheckpointHeight ≤ n) :
    (state prune n).PastCheckpoint := by
  have hs := (settled prune hn).2.1
  generalize state prune n = s at hs ⊢
  have htip := hs.describes.chainTip
  have hlen := chain_length false n
  rw [chain_eq_cons] at htip hlen
  refine ⟨_, _, htip, ?_⟩
  rw [hlen]
  push_cast
  omega

theorem state_succ (prune : Bool) (n : Nat) :
    (state prune n).carryOut crypto prune [(entry false (n + 1)).2.call] = state prune (n + 1) := by
  rw [state, state, chain_succ]
  rfl

/-- The block at height `n` is stored and known. -/
theorem state_block (prune : Bool) (hn : n ≤ 28861) :
    (state prune n).ledger.Known (entry false n).1 ∧
      ∃ storedAt,
        (state prune n).blockStore[(entry false n).1]? = some ⟨(entry false n).2, storedAt⟩ := by
  have hs := (settled prune hn).2.1
  have hmem : entry false n ∈ chain false n := mem_chain.mpr ⟨n, le_rfl, rfl⟩
  exact ⟨(hs.describes.known_iff _).mpr (List.mem_map_of_mem hmem), hs.stored _ hmem⟩

end Pinned

/-! ### The checkpoint and the chain below it -/

/-- **The checkpoint pins history.**  A known block at or above the checkpoint
has it as its ancestor at that height, or is it.  Calls that lead from one
tip past the checkpoint to another leave the main chain up to it alone. -/
theorem checkpoints_pin_history {crypto : Crypto} {prune : Bool} {s : Processor}
    (h : Reachable crypto prune s) :
    (∀ id e, s.ledger.Known id → s.blockStore[id]? = some e →
      latestCheckpointHeight ≤ e.block.header.height →
      ∃ c, PreviousPath crypto s.blockStore ((id, e.block) :: c) ∧
        ∃ y ∈ (id, e.block) :: c, y.2.header.height = latestCheckpointHeight ∧
          checkpoints latestCheckpointHeight = some y.1) ∧
    ∀ calls, s.PastCheckpoint → (s.carryOut crypto prune calls).PastCheckpoint →
      ∀ height ≤ latestCheckpointHeight,
        (s.carryOut crypto prune calls).ledger.getBlockIDForHeight height =
          s.ledger.getBlockIDForHeight height := by
  obtain ⟨c, K, hs⟩ := h.settled
  constructor
  · intro id e hid he hheight
    obtain ⟨d, hadm, hst, -⟩ := hs.tree.line ((hs.describes.known_iff id).mp hid) he
    obtain ⟨pre, y, post, hsplit, -, hy, hc⟩ := hadm.checkpoint_mem hst hheight
    refine ⟨d, hadm.previousPath hst, y, ?_, hy, hc⟩
    rw [hsplit]
    exact List.mem_append_right _ List.mem_cons_self
  · intro calls hpast hpast' height hle
    have h' : Reachable crypto prune (s.carryOut crypto prune calls) :=
      Run.carryOut h fun _ _ => trivial
    obtain ⟨c', K', hs'⟩ := h'.settled
    obtain ⟨d, y, e, rfl, hlen, hy⟩ := hs.cut hpast
    obtain ⟨d', y', e', rfl, hlen', hy'⟩ := hs'.cut hpast'
    -- the same block in both states, so the same line below it
    have hid : y.1 = y'.1 := Option.some.inj (hy.symm.trans hy')
    have hmem : y.1 ∈ K :=
      hs.describes.known _ (List.mem_map_of_mem (List.mem_append_right _ List.mem_cons_self))
    have hkeep {z : BlockID × Block} (hz : z ∈ y :: e) : ∃ storedAt,
        (s.carryOut crypto prune calls).blockStore[z.1]? = some ⟨z.2, storedAt⟩ := by
      obtain ⟨storedAt, hget⟩ := hs.stored z (List.mem_append_right _ hz)
      have hz' := hs.describes.known _ (List.mem_map_of_mem (List.mem_append_right d hz))
      exact ⟨storedAt, (h.carryOut_stored ((hs.describes.known_iff _).mpr hz') calls).trans hget⟩
    have hline' := (hs'.admitted.line hs'.stored).suffix
    have hline : BlockLine crypto (s.carryOut crypto prune calls).blockStore (y :: e) :=
      BlockLine.of_stored (hs.admitted.line hs.stored).suffix fun z hz => hkeep hz
    obtain rfl : y = y' := by
      have hst' : Stored (s.carryOut crypto prune calls).blockStore (y :: e) := fun z hz => hkeep hz
      exact hst'.eq_of_fst_eq (fun z hz => hs'.stored z (List.mem_append_right _ hz))
        List.mem_cons_self List.mem_cons_self hid
    obtain rfl := BlockLine.ext hline hline'
    refine Option.ext fun id => ?_
    rw [hs.heightIndex_of_append (hlen ▸ hle), hs'.heightIndex_of_append (hlen' ▸ hle)]

theorem checkpoints_pin_sample :
    (∃ c, PreviousPath Pinned.crypto (Pinned.state false 18145).blockStore
        (Pinned.entry false 18145 :: c) ∧
      ∃ y ∈ Pinned.entry false 18145 :: c, y.2.header.height = latestCheckpointHeight ∧
        checkpoints latestCheckpointHeight = some y.1) ∧
    ∀ height ≤ latestCheckpointHeight,
      (Pinned.state false 18145).ledger.getBlockIDForHeight height =
        (Pinned.state false 18144).ledger.getBlockIDForHeight height := by
  constructor
  · obtain ⟨hknown, storedAt, hstored⟩ := Pinned.state_block false (n := 18145) (by omega)
    refine (checkpoints_pin_history (Pinned.reachable false (by omega))).1 _ _ hknown hstored ?_
    rw [Pinned.entry_height]
    decide
  · have hsucc := Pinned.state_succ false 18144
    have hpast : (Pinned.state false 18144).PastCheckpoint :=
      Pinned.pastCheckpoint false (by omega) (by decide)
    have hpast' : (Pinned.state false 18145).PastCheckpoint :=
      Pinned.pastCheckpoint false (by omega) (by decide)
    intro height hle
    rw [← hsucc] at hpast' ⊢
    exact (checkpoints_pin_history (Pinned.reachable false (by omega))).2 _ hpast hpast' height hle

end Cruzbit
