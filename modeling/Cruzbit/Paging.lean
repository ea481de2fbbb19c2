/-
Cruzbit/Paging.lean

Reading a public key's history page by page.

A page tells the height and index of its last entry, and the next query
starts one index further, in the direction of the first query.  But every
query decides its direction anew from its two heights.  Going forward this
is no problem.  In reverse, a query that starts in the last block of the
range goes forward, and so it repeats what it should go past.

`paging_iff` says exactly when the pages together are the whole history in the
range: going forward always, in reverse as long as no page is filled by an
entry of the last block above index zero.  (With pages of one entry such an
entry does no harm if the transaction in front of it involves the key too.)
-/
import Cruzbit.LedgerSteps
import Cruzbit.RangeQuery

namespace Cruzbit

open Chain Word

/-- Where the next page starts. -/
def RangeResult.next (forward : Bool) (r : RangeResult) : Int × Int :=
  (r.lastHeight, if forward then r.lastIndex + 1 else r.lastIndex - 1)

/-- Reading page after page until one is shorter than the limit. -/
inductive Pages (l : Ledger) (pk : PublicKey) (endHeight limit : Int) (forward : Bool) :
    Int × Int → List RangeResult → Prop
  | last {start : Int × Int} {r : RangeResult} :
      l.getPublicKeyTransactionIndicesRange pk start.1 endHeight start.2 limit = .ok r →
      r.indices.length < limit → Pages l pk endHeight limit forward start [r]
  | more {start : Int × Int} {r : RangeResult} {rs : List RangeResult} :
      l.getPublicKeyTransactionIndicesRange pk start.1 endHeight start.2 limit = .ok r →
      ¬ r.indices.length < limit → Pages l pk endHeight limit forward (r.next forward) rs →
      Pages l pk endHeight limit forward start (r :: rs)

/-- In a list that is in order, what comes after an entry. -/
theorem filter_after {α : Type} {r : α → α → Prop} [DecidableRel r] [Std.Asymm r] {u v : List α}
    {y : α} (h : (u ++ y :: v).Pairwise r) : (u ++ y :: v).filter (fun x => r y x) = v := by
  obtain ⟨-, hv, huv⟩ := List.pairwise_append.mp h
  obtain ⟨hyv, -⟩ := List.pairwise_cons.mp hv
  have hu : u.filter (fun x => r y x) = [] := by
    rw [List.filter_eq_nil_iff]
    intro x hx hyx
    exact Std.Asymm.asymm _ _ (huv x hx y List.mem_cons_self) (of_decide_eq_true hyx)
  have hy : ¬ r y y := fun hyy => Std.Asymm.asymm _ _ hyy hyy
  rw [List.filter_append, hu, List.nil_append, List.filter_cons_of_neg (by simpa using hy),
    List.filter_eq_self]
  exact fun x hx => decide_eq_true (hyv x hx)

/-! ### One page further -/

section Step

variable {pk : PublicKey} {c : Chain} {y z : Position} {endHeight : Int} {u v : List Position}

theorem unsigned_int32 (x : Int) : unsigned 4 (int32 x) = unsigned 4 x := by
  have hwidth : (256 : Int) ^ 4 = ((2 ^ 32 : Nat) : Int) := by norm_num
  rw [unsigned, unsigned, int32, hwidth, Int.bmod_emod]

/-- The start of the next page going forward is one index further. -/
theorem cursor_succ (hy : y.InBounds) :
    cursor y.height ((y.index : Int) + 1) = ⟨y.height, y.index + 1⟩ := by
  have hindex := hy.index_lt
  rw [cursor, unsigned_height hy.height_lt, unsigned_int32,
    unsigned_of_nonneg (by omega) (by norm_num; omega)]
  congr 1

/-- In reverse it is made inclusive, so it is the last entry itself. -/
theorem cursor_pred (hy : y.InBounds) :
    cursor y.height (int64 ((y.index : Int) - 1 + 1)) = y := by
  have hindex := hy.index_lt
  rw [sub_add_cancel, int64_of_fits (by unfold Fits64; omega), cursor,
    unsigned_height hy.height_lt, unsigned_index hindex]

/-- In reverse from index zero it is beyond all indices of the block. -/
theorem cursor_neg_one (hy : y.InBounds) : cursor y.height (-1) = ⟨y.height, 2 ^ 32 - 1⟩ := by
  rw [cursor, unsigned_height hy.height_lt]
  rfl

/-- What is left after an entry, going forward. -/
theorem selectForward_after (h : selectForward pk c z endHeight = u ++ y :: v) :
    selectForward pk c ⟨y.height, y.index + 1⟩ endHeight = v := by
  have hsorted := selectForward_sorted pk c z endHeight
  have hy : y ∈ selectForward pk c z endHeight := h ▸ List.mem_append_right _ List.mem_cons_self
  have hz : z ≤ y := (mem_selectForward.mp hy).2.1
  rw [h] at hsorted
  rw [← filter_after hsorted, ← h, selectForward, selectForward, List.filter_filter]
  refine List.filter_congr fun p _ => ?_
  have hlt : (⟨y.height, y.index + 1⟩ : Position) ≤ p ↔ y < p := by
    rw [Position.le_iff, Position.lt_iff]
    rfl
  rw [← Bool.decide_and, decide_eq_decide, hlt]
  exact ⟨fun hp => ⟨hp.1, hz.trans hp.1.le, hp.2⟩, fun hp => ⟨hp.1, hp.2.2⟩⟩

/-- What is left after an entry, in reverse. -/
theorem selectReverse_after (h : selectReverse pk c z endHeight = u ++ y :: v) :
    selectReverse pk c y endHeight = v := by
  have hsorted := selectReverse_sorted pk c z endHeight
  have hy : y ∈ selectReverse pk c z endHeight := h ▸ List.mem_append_right _ List.mem_cons_self
  have hz : y < z := (mem_selectReverse.mp hy).2.2
  rw [h] at hsorted
  rw [← filter_after hsorted, ← h, selectReverse, selectReverse, List.filter_reverse,
    List.filter_filter]
  refine congrArg List.reverse (List.filter_congr fun p _ => ?_)
  rw [← Bool.decide_and, decide_eq_decide]
  exact ⟨fun hp => ⟨hp.2, hp.1, hp.2.trans hz⟩, fun hp => ⟨hp.2.1, hp.1⟩⟩

end Step

/-! ### Page after page -/

section Paging

variable {crypto : Crypto} {s : BlockStorage} {l : Ledger} {c : Chain} {K : Set BlockID}
  {pk : PublicKey} {start : Int × Int} {endHeight limit : Int} {forward : Bool}
  {rest : List Position} {rs : List RangeResult} {z : Position}

/-- Where the page after one that ends in this entry starts. -/
def Position.resume (forward : Bool) (y : Position) : Int × Int :=
  (y.height, if forward then (y.index : Int) + 1 else (y.index : Int) - 1)

/-- The next page is what it should be if `rest` is left. -/
def Resumes (pk : PublicKey) (c : Chain) (endHeight limit : Int) (start : Int × Int)
    (rest : List Position) : Prop :=
  (select pk c endHeight start.1 start.2).take limit.toNat = rest.take limit.toNat

/-- The pages show these positions together. -/
def ShowAll (l : Ledger) (rs : List RangeResult) (ps : List Position) : Prop :=
  (rs.map (·.ids)).flatten.map some = ps.map (fun p => l.getBlockIDForHeight p.height) ∧
    (rs.map (·.indices)).flatten = ps.map fun p => (p.index : Int)

theorem RangeResult.Shows.next_eq {r : RangeResult} {u : List Position} {y : Position}
    (h : r.Shows l (u ++ [y])) : r.next forward = y.resume forward := by
  have hlast : (r.lastHeight, r.lastIndex) = ((y.height : Int), (y.index : Int)) := by
    rw [h.last, List.getLast?_concat]
    rfl
  obtain ⟨hheight, hindex⟩ := Prod.mk.inj hlast
  rw [RangeResult.next, Position.resume, hheight, hindex]

/-- The query made from here, if `rest` is left. -/
theorem OnChain.page_of_resumes (h : OnChain crypto false s l c K)
    (hpk : pk.length = publicKeySize) (hend : 0 ≤ endHeight ∧ endHeight < 2 ^ 63)
    (hlimit : 1 ≤ limit) (hres : Resumes pk c endHeight limit start rest) :
    ∃ r, l.getPublicKeyTransactionIndicesRange pk start.1 endHeight start.2 limit = .ok r ∧
      r.Shows l (rest.take limit.toNat) := by
  obtain ⟨r, hr, hshows⟩ := h.range_eq hpk hend (by omega : 0 ≤ limit) start.1 start.2
  rw [page, if_neg (by omega), hres] at hshows
  exact ⟨r, hr, hshows⟩

theorem RangeResult.Shows.length_eq {r : RangeResult} {ps : List Position} (h : r.Shows l ps) :
    r.indices.length = ps.length := by
  rw [h.indices, List.length_map]

/-- A list that is longer than a page, cut after the first page. -/
theorem exists_full_page {α : Type} {xs : List α} (hlimit : 1 ≤ limit)
    (hlen : ¬ (xs.length : Int) < limit) :
    ∃ u y v, xs = u ++ y :: v ∧ xs.take limit.toNat = u ++ [y] ∧ (u.length : Int) + 1 = limit := by
  have hne : xs.take limit.toNat ≠ [] := by
    intro hnil
    have := congrArg List.length hnil
    rw [List.length_take, List.length_nil] at this
    omega
  refine ⟨(xs.take limit.toNat).dropLast, (xs.take limit.toNat).getLast hne,
    xs.drop limit.toNat, ?_, (List.dropLast_append_getLast hne).symm, ?_⟩
  · rw [List.append_cons, List.dropLast_append_getLast hne, List.take_append_drop]
  · rw [List.length_dropLast, List.length_take]
    omega

/-- **Reading on** works if every page that gets full is resumed right. -/
theorem OnChain.exists_pages (h : OnChain crypto false s l c K) (hpk : pk.length = publicKeySize)
    (hend : 0 ≤ endHeight ∧ endHeight < 2 ^ 63) (hlimit : 1 ≤ limit)
    (hres : Resumes pk c endHeight limit start rest)
    (hstep : ∀ u y v, rest = u ++ y :: v → limit ∣ (u.length : Int) + 1 →
      Resumes pk c endHeight limit (y.resume forward) v) :
    ∃ rs, Pages l pk endHeight limit forward start rs ∧ ShowAll l rs rest := by
  induction hn : rest.length using Nat.strong_induction_on generalizing start rest with
  | _ n ih =>
  obtain ⟨r, hr, hshows⟩ := h.page_of_resumes hpk hend hlimit hres
  by_cases hshort : (rest.length : Int) < limit
  · -- the last page
    rw [List.take_of_length_le (by omega)] at hshows
    refine ⟨[r], .last hr (by rwa [hshows.length_eq]), ?_, ?_⟩
    · simpa using hshows.ids
    · simpa using hshows.indices
  · obtain ⟨u, y, v, rfl, htake, hu⟩ := exists_full_page hlimit hshort
    rw [htake] at hshows
    obtain ⟨rs, hrs, hids, hindices⟩ := ih v.length (by simp at hn; omega)
      (hstep u y v rfl ⟨1, by omega⟩)
      (fun u' y' v' hv hdvd => hstep (u ++ y :: u') y' v' (by simp [hv]) (by
        rw [List.length_append, List.length_cons]
        push_cast
        have : (u.length : Int) + (u'.length + 1) + 1 = limit + (u'.length + 1) := by omega
        rw [this]
        exact dvd_add_self_left.mpr hdvd)) rfl
    have hnext : r.next forward = y.resume forward := hshows.next_eq
    refine ⟨r :: rs, .more hr ?_ (hnext ▸ hrs), ?_, ?_⟩
    · rw [hshows.length_eq, List.length_append, List.length_singleton]
      push_cast
      omega
    · simp [hids, hshows.ids]
    · simp [hindices, hshows.indices]

/-! ### Going forward -/

theorem OnChain.resumes_forward (h : OnChain crypto false s l c K) {u v : List Position}
    {y : Position} (hsplit : selectForward pk c z endHeight = u ++ y :: v) :
    Resumes pk c endHeight limit (y.resume true) v := by
  have hy : y ∈ selectForward pk c z endHeight :=
    hsplit ▸ List.mem_append_right _ List.mem_cons_self
  obtain ⟨hmem, -, hle⟩ := mem_selectForward.mp hy
  show (select pk c endHeight (y.height : Int) ((y.index : Int) + 1)).take limit.toNat = _
  rw [select, if_pos hle, cursor_succ (h.inBounds hmem), selectForward_after hsplit]

/-! ### In reverse -/

/-- A page may end in this entry. -/
def Safe (pk : PublicKey) (c : Chain) (endHeight limit : Int) (y : Position) : Prop :=
  y.height = endHeight → y.index = 0 ∨ limit = 1 ∧ ⟨y.height, y.index - 1⟩ ∈ history pk c

theorem head_of_sorted {α : Type} {r : α → α → Prop} [Std.Asymm r] {xs : List α} {q : α}
    (h : xs.Pairwise r) (hq : q ∈ xs) (hfirst : ∀ p ∈ xs, ¬ r p q) : xs.take 1 = [q] := by
  obtain ⟨u, v, rfl⟩ := List.append_of_mem hq
  cases u with
  | nil => rfl
  | cons p u =>
    exact absurd (List.rel_of_pairwise_cons h (by simp)) (hfirst p (by simp))

/-- In the last block the next query goes forward from the transaction in front. -/
theorem OnChain.select_resume_of_height_eq (h : OnChain crypto false s l c K) {y : Position}
    (hy : y ∈ history pk c) (hheight : (y.height : Int) = endHeight) (hindex : y.index ≠ 0) :
    select pk c endHeight (y.resume false).1 (y.resume false).2 =
      selectForward pk c ⟨y.height, y.index - 1⟩ endHeight := by
  have hbounds := h.inBounds hy
  have hlt := hbounds.index_lt
  have hpred : (y.index : Int) - 1 = ((y.index - 1 : Nat) : Int) := by omega
  show select pk c endHeight (y.height : Int) ((y.index : Int) - 1) = _
  rw [select, if_pos hheight.le, cursor, unsigned_height hbounds.height_lt, hpred,
    unsigned_index (by omega)]

theorem OnChain.resumes_reverse (h : OnChain crypto false s l c K) {u v : List Position}
    {y : Position} (hsplit : selectReverse pk c z endHeight = u ++ y :: v)
    (hsafe : Safe pk c endHeight limit y) :
    Resumes pk c endHeight limit (y.resume false) v := by
  have hy : y ∈ selectReverse pk c z endHeight :=
    hsplit ▸ List.mem_append_right _ List.mem_cons_self
  obtain ⟨hmem, hle, -⟩ := mem_selectReverse.mp hy
  have hbounds := h.inBounds hmem
  rw [Resumes, ← selectReverse_after hsplit]
  rcases hle.lt_or_eq with hlt | heq
  · show (select pk c endHeight (y.height : Int) ((y.index : Int) - 1)).take limit.toNat = _
    rw [select, if_neg (not_le.mpr hlt), cursor_pred hbounds]
  by_cases hzero : y.index = 0
  · -- nothing is left, and the query is beyond the block
    have hnone : selectReverse pk c y endHeight = [] := by
      rw [List.eq_nil_iff_forall_not_mem]
      intro p hp
      obtain ⟨-, hge, hlt⟩ := mem_selectReverse.mp hp
      rw [Position.lt_iff] at hlt
      omega
    have hnext : select pk c endHeight (y.resume false).1 (y.resume false).2 = [] := by
      show select pk c endHeight (y.height : Int) ((y.index : Int) - 1) = _
      rw [hzero, select, if_pos heq.ge, Nat.cast_zero, zero_sub, cursor_neg_one hbounds,
        List.eq_nil_iff_forall_not_mem]
      intro p hp
      obtain ⟨hin, hge, hlt⟩ := mem_selectForward.mp hp
      have := (h.inBounds hin).index_lt
      rw [Position.le_iff] at hge
      simp only at hge
      omega
    rw [hnone, hnext]
  · -- one transaction a page: the query finds the one in front
    rw [h.select_resume_of_height_eq hmem heq.symm hzero]
    obtain ⟨rfl, hpred⟩ := (hsafe heq.symm).resolve_left hzero
    rw [Int.toNat_one, head_of_sorted (selectForward_sorted pk c _ endHeight)
      (mem_selectForward.mpr ⟨hpred, le_refl _, heq.ge⟩)
      fun p hp => not_lt.mpr (mem_selectForward.mp hp).2.1]
    refine (head_of_sorted (selectReverse_sorted pk c y endHeight)
      (mem_selectReverse.mpr ⟨hpred, heq.le, ?_⟩) fun p hp hgt => ?_).symm
    · exact Position.lt_iff.mpr (Or.inr ⟨rfl, by simp only; omega⟩)
    · obtain ⟨-, hge, hlt⟩ := mem_selectReverse.mp hp
      rw [Position.lt_iff] at hlt
      rw [gt_iff_lt, Position.lt_iff] at hgt
      simp only at hgt
      omega

/-- Otherwise the next page repeats the entry. -/
theorem OnChain.mem_of_not_safe (h : OnChain crypto false s l c K) (hlimit : 1 ≤ limit)
    {y : Position} (hy : y ∈ history pk c) (hsafe : ¬ Safe pk c endHeight limit y) :
    y ∈ (select pk c endHeight (y.resume false).1 (y.resume false).2).take limit.toNat := by
  unfold Safe at hsafe
  push Not at hsafe
  obtain ⟨heq, hindex, hpred⟩ := hsafe
  rw [h.select_resume_of_height_eq hy heq hindex]
  have hyin : y ∈ selectForward pk c ⟨y.height, y.index - 1⟩ endHeight :=
    mem_selectForward.mpr ⟨hy, Position.le_iff.mpr (Or.inr ⟨rfl, by simp only; omega⟩), heq.le⟩
  have hsorted := selectForward_sorted pk c ⟨y.height, y.index - 1⟩ endHeight
  obtain ⟨u, v, hsplit⟩ := List.append_of_mem hyin
  rw [hsplit] at hsorted ⊢
  obtain ⟨hu, -, huv⟩ := List.pairwise_append.mp hsorted
  -- only the transaction in front comes before it
  have hfront : ∀ p ∈ u, p = ⟨y.height, y.index - 1⟩ ∧ p ∈ history pk c := by
    intro p hp
    obtain ⟨hin, hge, -⟩ := mem_selectForward.mp (hsplit ▸ List.mem_append_left _ hp)
    refine ⟨le_antisymm (not_lt.mp fun hgt => ?_) hge, hin⟩
    have hlt := huv p hp y List.mem_cons_self
    rw [Position.lt_iff] at hlt hgt
    simp only at hgt
    omega
  have hlen : u.length < limit.toNat := by
    rw [List.eq_replicate_of_mem fun p hp => (hfront p hp).1, List.pairwise_replicate] at hu
    rcases hu with hle | habs
    · rcases Nat.lt_or_ge u.length 1 with hlt | hge
      · omega
      · obtain ⟨p, hp⟩ := List.exists_mem_of_length_pos hge
        have : limit ≠ 1 := fun hone => hpred hone ((hfront p hp).1 ▸ (hfront p hp).2)
        omega
    · exact absurd habs (lt_irrefl _)
  rw [List.take_append]
  refine List.mem_append_right _ ?_
  obtain ⟨k, hk⟩ : ∃ k, limit.toNat - u.length = k + 1 := ⟨limit.toNat - u.length - 1, by omega⟩
  rw [hk, List.take_succ_cons]
  exact List.mem_cons_self

theorem Pages.head_subset (h : Pages l pk endHeight limit forward start rs) :
    ∃ r, l.getPublicKeyTransactionIndicesRange pk start.1 endHeight start.2 limit = .ok r ∧
      ∀ i ∈ r.indices, i ∈ (rs.map (·.indices)).flatten := by
  cases h with
  | last hr _ => exact ⟨_, hr, fun i hi => by simpa using hi⟩
  | more hr _ _ => exact ⟨_, hr, fun i hi => by simp [hi]⟩

/-- If the pages together are what is left, no page ended in an entry that the
next page repeats. -/
theorem OnChain.safe_of_pages (h : OnChain crypto false s l c K) (hpk : pk.length = publicKeySize)
    (hend : 0 ≤ endHeight ∧ endHeight < 2 ^ 63) (hlimit : 1 ≤ limit)
    (hpages : Pages l pk endHeight limit false start rs)
    (hres : Resumes pk c endHeight limit start rest)
    (hrest : selectReverse pk c z endHeight = rest)
    (hflat : (rs.map (·.indices)).flatten = rest.map fun p => (p.index : Int))
    {u v : List Position} {y : Position} (hsplit : rest = u ++ y :: v)
    (hdvd : limit ∣ (u.length : Int) + 1) : Safe pk c endHeight limit y := by
  induction hpages generalizing rest z u v y with
  | last hr hshort =>
    obtain ⟨r, hr', hshows⟩ := h.page_of_resumes hpk hend hlimit hres
    obtain rfl := Except.ok.inj (hr.symm.trans hr')
    rw [hshows.length_eq, List.length_take, hsplit, List.length_append, List.length_cons] at hshort
    have := Int.le_of_dvd (by omega) hdvd
    omega
  | @more _ _ rs hr hfull hpages ih =>
    obtain ⟨r, hr', hshows⟩ := h.page_of_resumes hpk hend hlimit hres
    obtain rfl := Except.ok.inj (hr.symm.trans hr')
    rw [hshows.length_eq, List.length_take] at hfull
    have hlong : ¬ (rest.length : Int) < limit := by omega
    obtain ⟨w, x, t, rfl, htake, hw⟩ := exists_full_page hlimit hlong
    rw [htake] at hshows
    rw [hshows.next_eq] at hpages ih
    have htail := selectReverse_after hrest
    have hflat' : (rs.map (·.indices)).flatten = t.map fun p => (p.index : Int) := by
      simpa [hshows.indices] using hflat
    have hx : x ∈ selectReverse pk c z endHeight := by simp [hrest]
    have hsafe : Safe pk c endHeight limit x := by
      by_contra hsafe
      obtain ⟨r', hr', hsub⟩ := hpages.head_subset
      obtain ⟨r'', hr'', hshows'⟩ := h.range_eq hpk hend (by omega : 0 ≤ limit)
        (x.resume false).1 (x.resume false).2
      obtain rfl := Except.ok.inj (hr'.symm.trans hr'')
      rw [page, if_neg (by omega)] at hshows'
      have hin : (x.index : Int) ∈ t.map fun p => (p.index : Int) := by
        rw [← hflat']
        refine hsub _ ?_
        rw [hshows'.indices]
        exact List.mem_map_of_mem (h.mem_of_not_safe hlimit (mem_selectReverse.mp hx).1 hsafe)
      obtain ⟨p, hp, hpx⟩ := List.mem_map.mp hin
      obtain ⟨-, hge, hlt⟩ := mem_selectReverse.mp (htail ▸ hp)
      unfold Safe at hsafe
      push Not at hsafe
      rw [Position.lt_iff] at hlt
      omega
    rcases List.append_eq_append_iff.mp hsplit with ⟨a, rfl, hat⟩ | ⟨b, rfl, hbv⟩
    · cases a with
      | nil => exact (List.cons.inj hat).1 ▸ hsafe
      | cons x' a =>
        obtain ⟨rfl, ht⟩ := List.cons.inj hat
        refine ih (h.resumes_reverse hrest hsafe) htail hflat' ht ?_
        rw [List.length_append, List.length_cons] at hdvd
        have hsum : ((w.length + (a.length + 1) : Nat) : Int) + 1 = limit + (a.length + 1) := by
          omega
        rw [hsum] at hdvd
        exact dvd_add_self_left.mp hdvd
    · -- a shorter first page would not be full
      have hle := Int.le_of_dvd (by omega) hdvd
      rw [List.length_append] at hw
      obtain rfl : b = [] := List.length_eq_zero_iff.mp (by omega)
      exact (List.cons.inj hbv).1 ▸ hsafe

/-! ### The law of paging -/

variable {startHeight : Int}

/-- The pages together are the unlimited result. -/
def PagesJoin (l : Ledger) (pk : PublicKey) (startHeight endHeight startIndex limit : Int)
    (full : RangeResult) : Prop :=
  ∃ rs, Pages l pk endHeight limit (decide (startHeight ≤ endHeight)) (startHeight, startIndex) rs ∧
    (rs.map (·.ids)).flatten = full.ids ∧ (rs.map (·.indices)).flatten = full.indices

theorem OnChain.pagesJoin_iff (h : OnChain crypto false s l c K) (hpk : pk.length = publicKeySize)
    (hend : 0 ≤ endHeight ∧ endHeight < 2 ^ 63) (hlimit : 1 ≤ limit) (startHeight startIndex : Int)
    {full : RangeResult} (hfull : full.Shows l (select pk c endHeight startHeight startIndex)) :
    PagesJoin l pk startHeight endHeight startIndex limit full ↔ startHeight ≤ endHeight ∨
      ∀ u y v, select pk c endHeight startHeight startIndex = u ++ y :: v →
        limit ∣ (u.length : Int) + 1 → Safe pk c endHeight limit y := by
  constructor
  · rintro ⟨rs, hpages, -, hindices⟩
    refine or_iff_not_imp_left.mpr fun hback u y v hsplit hdvd => ?_
    rw [decide_eq_false hback] at hpages
    have hrev : selectReverse pk c (cursor startHeight (int64 (startIndex + 1))) endHeight =
        select pk c endHeight startHeight startIndex := by
      rw [select, if_neg hback]
    exact h.safe_of_pages hpk hend hlimit hpages rfl hrev (hindices.trans hfull.indices) hsplit hdvd
  · intro hsafe
    have hres : Resumes pk c endHeight limit (startHeight, startIndex)
        (select pk c endHeight startHeight startIndex) := rfl
    obtain ⟨rs, hpages, hids, hindices⟩ := h.exists_pages hpk hend hlimit hres
      fun u y v hsplit hdvd => show Resumes pk c endHeight limit
          (y.resume (decide (startHeight ≤ endHeight))) v by
        by_cases hle : startHeight ≤ endHeight
        · rw [decide_eq_true hle]
          rw [select, if_pos hle] at hsplit
          exact h.resumes_forward hsplit
        · have hy := hsafe.resolve_left hle u y v hsplit hdvd
          rw [decide_eq_false hle]
          rw [select, if_neg hle] at hsplit
          exact h.resumes_reverse hsplit hy
    refine ⟨rs, hpages, ?_, hindices.trans hfull.indices.symm⟩
    exact List.map_injective_iff.mpr (Option.some_injective _) (hids.trans hfull.ids.symm)

/-- **When pages lose and repeat nothing.**  `ps` are the transactions in the
range in the order of the query.  Going forward the pages together are always
the unlimited result.  In reverse they are if and only if no page gets full
with a transaction of the last block that is not its first one; with pages of
one transaction, unless the transaction in front involves the key too. -/
theorem paging_iff (h : LedgerRun crypto false s l) (hpk : pk.length = publicKeySize)
    (hend : 0 ≤ endHeight ∧ endHeight < 2 ^ 63) (hlimit : 1 ≤ limit)
    (startHeight startIndex : Int) :
    ∃ (ps : List Position) (full : RangeResult),
      (∀ p, p ∈ ps ↔ Ahead startHeight endHeight startIndex p ∧
        ∃ x tx, mainBlock s l p.height = some x ∧ x.2.transactions[p.index]? = some tx ∧
          tx.Involves pk) ∧
      (if startHeight ≤ endHeight then ps.Pairwise (· < ·) else ps.Pairwise (· > ·)) ∧
      l.getPublicKeyTransactionIndicesRange pk startHeight endHeight startIndex 0 = .ok full ∧
      full.Shows l ps ∧
      (PagesJoin l pk startHeight endHeight startIndex limit full ↔ startHeight ≤ endHeight ∨
        ∀ u y v, ps = u ++ y :: v → limit ∣ (u.length : Int) + 1 → (y.height : Int) = endHeight →
          y.index = 0 ∨ limit = 1 ∧ ∃ x tx, mainBlock s l y.height = some x ∧
            x.2.transactions[y.index - 1]? = some tx ∧ tx.Involves pk) := by
  obtain ⟨c, K, hc⟩ := h.invariant
  obtain ⟨full, hfull, hshows⟩ := hc.range_eq hpk hend (le_refl 0) startHeight startIndex
  rw [page, if_pos rfl] at hshows
  refine ⟨_, full, fun p => ?_, select_sorted pk c endHeight startHeight startIndex, hfull, hshows,
    (hc.pagesJoin_iff hpk hend hlimit startHeight startIndex hshows).trans ?_⟩
  · rw [mem_select_iff, hc.mem_history_iff]
  · simp only [Safe, hc.mem_history_iff]

end Paging

/-- The key of the sample chain in reverse from the transfer to block 98, two
transactions a page: the second page ends with the first transaction of the
last block. -/
theorem paging_of_sample : ∃ s l, LedgerRun Sample.crypto false s l ∧
    ∃ full, l.getPublicKeyTransactionIndicesRange genesisCoinbase.recipient 100 98 1 0 = .ok full ∧
      full.indices = [1, 0, 0, 0] ∧ PagesJoin l genesisCoinbase.recipient 100 98 1 2 full := by
  obtain ⟨l₀, s, l, hrun₀, -, hsteps, hc⟩ := Sample.exists_run 100 (by decide)
  have hrun := hsteps.run hrun₀
  obtain ⟨ps, full, hmem, hsorted, hfull, hshows, hiff⟩ := paging_iff hrun
    (show genesisCoinbase.recipient.length = publicKeySize by decide)
    (show (0 : Int) ≤ 98 ∧ (98 : Int) < 2 ^ 63 by decide) (show (1 : Int) ≤ 2 by decide) 100 1
  have hselect : ps = select genesisCoinbase.recipient (Sample.chain 0 100) 98 100 1 := by
    refine eq_select (fun p => ?_) hsorted
    rw [hmem, hc.mem_history_iff]
  obtain rfl := hselect.trans Sample.select_reverse
  refine ⟨s, l, hrun, full, hfull, hshows.indices, hiff.mpr (Or.inr ?_)⟩
  intro u y v hsplit _ hheight
  have hy : y ∈ [⟨100, 1⟩, ⟨100, 0⟩, ⟨99, 0⟩, (⟨98, 0⟩ : Position)] := hsplit ▸ by simp
  left
  fin_cases hy <;> simp_all

namespace Sample

theorem not_involves_payee (matures : Int) (n : Nat) :
    ¬ (coinbase matures n).Involves payee := by
  show ¬ genesisCoinbase.Involves payee
  decide

theorem history_payee {n : Nat} (hn : n < 100) : history payee (chain 0 n) = [] := by
  induction n with
  | zero => decide
  | succ n ih =>
    rw [chain, history, ih (by omega), List.nil_append, blockHistory]
    have htransfers : (entry 0 (n + 1)).2.transactions = [coinbase 0 (n + 1)] := by
      show coinbase 0 (n + 1) :: transfers 0 (n + 1) = _
      rw [transfers, if_neg (by omega)]
    simp [htransfers, not_involves_payee]

/-- They are paid in the second transaction of block 100. -/
theorem history_payee_hundred : history payee (chain 0 100) = [⟨100, 1⟩] := by
  rw [chain, history, history_payee (by omega), List.nil_append, blockHistory, chain_length]
  have htransfers : (entry 0 100).2.transactions = [coinbase 0 100, transfer 0] := rfl
  have hpaid : (transfer 0).Involves payee := Or.inl rfl
  simp [htransfers, not_involves_payee, hpaid]

end Sample

/-- Reading in reverse from height 101 to height 100, one transaction a page: the
only transaction in the range is the second one of block 100.  The next query
goes forward from the first one and returns it again, so the reading does not
come to an end. -/
theorem paging_repeats : ∃ s l, LedgerRun Sample.crypto false s l ∧
    ∃ full, l.getPublicKeyTransactionIndicesRange Sample.payee 101 100 0 0 = .ok full ∧
      full.indices = [1] ∧ ¬ PagesJoin l Sample.payee 101 100 0 1 full := by
  obtain ⟨l₀, s, l, hrun, -, hsteps, hc⟩ :=
    Sample.exists_run 100 (by decide)
  have hpk : Sample.payee.length = publicKeySize := by decide
  have hend : (0 : Int) ≤ 100 ∧ (100 : Int) < 2 ^ 63 := by decide
  obtain ⟨full, hfull, hshows⟩ := hc.range_eq hpk hend (le_refl 0) 101 0
  have hselect : select Sample.payee (Sample.chain 0 100) 100 101 0 = [⟨100, 1⟩] := by
    rw [select, if_neg (by decide), selectReverse, Sample.history_payee_hundred]
    decide
  rw [page, if_pos rfl] at hshows
  refine ⟨s, l, hsteps.run hrun, full, hfull, by simp [hshows.indices, hselect], fun hjoin => ?_⟩
  rcases (hc.pagesJoin_iff hpk hend (le_refl 1) 101 0 hshows).mp hjoin with hle | hsafe
  · exact absurd hle (by decide)
  · rcases hsafe [] ⟨100, 1⟩ [] hselect (one_dvd _) rfl with hzero | ⟨-, hmem⟩
    · exact absurd hzero (by decide)
    · rw [Sample.history_payee_hundred] at hmem
      exact absurd hmem (by decide)

end Cruzbit
