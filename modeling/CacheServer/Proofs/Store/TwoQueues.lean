import CacheServer.Proofs.Eviction.Order
import CacheServer.Proofs.Store.Calls

/-!
The two queues of the rule 2QUEUE, as the uses of keys in a run tell them. A key is in the queue to which it
came, whatever use is made of it: in the second if it was remembered, and else in the first. The first queue
is in the order of insertions and the second in the order of uses, so the uses tell which key goes.
-/

namespace CacheServer

namespace TwoQueues

variable {q rest : TwoQueues} {k k' : Key} {h : List Use} {capacity : Nat}

@[simp] theorem fresh_use (q : TwoQueues) (k : Key) : (q.use k).fresh = q.fresh := by
  unfold use
  split <;> rfl

@[simp] theorem ghosts_use (q : TwoQueues) (k : Key) : (q.use k).ghosts = q.ghosts := by
  unfold use
  split <;> rfl

/-- A use moves its key within the second queue, if it is there. -/
theorem WellFormed.hot_use_perm (hwf : q.WellFormed) (k : Key) :
    (q.use k).hot.toList.Perm q.hot.toList := by
  unfold TwoQueues.use
  split
  case isTrue hhot => exact hwf.hot.touch_perm_of_mem (hwf.hot.contains_iff.mp hhot)
  case isFalse => exact .refl _

theorem WellFormed.mem_hot_add_of_ne (hwf : q.WellFormed) (hne : k ≠ k') :
    k ∈ (q.add k').hot.toList ↔ k ∈ q.hot.toList := by
  unfold TwoQueues.add
  split
  · exact hwf.hot.mem_touch_of_ne hne
  · exact .rfl

theorem WellFormed.mem_hot_of_take? (hwf : q.WellFormed) (htake : q.take? = some (k', rest))
    (hne : k ≠ k') : k ∈ rest.hot.toList ↔ k ∈ q.hot.toList := by
  obtain ⟨fresh, -, -, rfl⟩ | ⟨hot, -, hfound, rfl⟩ := take?_cases htake
  · exact .rfl
  · exact hwf.hot.mem_of_takeOldest? hfound hne

theorem takesFresh_iff : q.takesFresh = true ↔ q.freshCapacity < q.fresh.size ∨ q.hot.toList = [] := by
  simp [takesFresh, ← Recency.isEmpty_iff]

/-- Only a key that goes from the first queue becomes a ghost. -/
theorem WellFormed.mem_ghosts_or_of_take? (hwf : q.WellFormed) (htake : q.take? = some (k', rest))
    (hk : k ∈ rest.ghosts.toList) : k ∈ q.ghosts.toList ∨ k = k' ∧ q.takesFresh = true := by
  obtain ⟨fresh, htakes, -, rfl⟩ | ⟨hot, -, -, rfl⟩ := take?_cases htake
  · rw [((hwf.ghosts.touch k').shrinkTo q.ghostCapacity).2] at hk
    have htouched := List.mem_of_mem_drop hk
    by_cases heq : k = k'
    · exact .inr ⟨heq, htakes⟩
    · exact .inl ((hwf.ghosts.mem_touch_of_ne heq).mp htouched)
  · exact .inl hk

/-- Such a key does become one, as there is room for a ghost at least. -/
theorem WellFormed.mem_ghosts_self_of_take? (hwf : q.WellFormed) (hb : q.Bounded capacity)
    (htake : q.take? = some (k, rest)) : k ∈ rest.ghosts.toList ↔ q.takesFresh = true := by
  have hcapacity := hb.ghostCapacity
  obtain ⟨fresh, htakes, hfound, rfl⟩ | ⟨hot, htakes, hfound, rfl⟩ := take?_cases htake
  · have hnot := hwf.not_mem_ghosts (List.mem_append_left _ (hwf.fresh.mem_of_takeOldest?_self hfound))
    have hsize := hwf.ghosts.size_touch_of_not_mem hnot
    refine iff_of_true ?_ htakes
    rw [((hwf.ghosts.touch k).shrinkTo q.ghostCapacity).2, hwf.ghosts.toList_touch_of_not_mem hnot,
      List.drop_append_of_le_length (by rw [Recency.length_toList]; omega)]
    exact List.mem_append_right _ List.mem_cons_self
  · have hmem := hwf.hot.mem_of_takeOldest?_self hfound
    exact iff_of_false (hwf.not_mem_ghosts (List.mem_append_right _ hmem)) (by simp [htakes])

/-- The two queues and the ghosts in a store with these keys. -/
structure Accounts (capacity : Nat) (keys : List Key) (q : TwoQueues) : Prop where
  /-- No key is in two of the three lists, or in one of them twice. -/
  nodup : (q.fresh.toList ++ q.hot.toList ++ q.ghosts.toList).Nodup
  residents : (q.fresh.toList ++ q.hot.toList).Perm keys
  ghosts : q.ghosts.size ≤ max 1 (capacity / 2)

/-- The first queue is in the order of insertions, and the second in the order of uses. -/
structure Follows (q : TwoQueues) (h : List Use) : Prop where
  fresh : InOrder (Uses.insertions h) q.fresh.toList
  hot : InOrder (Uses.keys h) q.hot.toList

theorem follows_ofCapacity (capacity : Nat) : (ofCapacity capacity).Follows [] := by
  constructor <;> simp [ofCapacity, InOrder.nil]

theorem Follows.add (hf : q.Follows h) (hwf : q.WellFormed)
    (hk : k ∉ q.fresh.toList ++ q.hot.toList) : (q.add k).Follows (h ++ [⟨k, .insertion⟩]) := by
  rw [List.mem_append, not_or] at hk
  have hkeys := Uses.keys_snoc h k .insertion
  unfold TwoQueues.add
  split
  · refine ⟨?_, ?_⟩
    · rw [Uses.insertions_snoc_insertion]
      exact hf.fresh.append_of_not_mem hk.1
    · rw [hkeys]
      exact hwf.hot.inOrder_touch hf.hot k
  · refine ⟨?_, ?_⟩
    · rw [Uses.insertions_snoc_insertion]
      exact hwf.fresh.inOrder_touch hf.fresh k
    · rw [hkeys]
      exact hf.hot.append_of_not_mem hk.2

theorem Follows.use (hf : q.Follows h) (hwf : q.WellFormed) {kind : UseKind}
    (hkind : kind ≠ .insertion) (k : Key) : (q.use k).Follows (h ++ [⟨k, kind⟩]) := by
  refine ⟨?_, ?_⟩
  · rw [Uses.insertions_snoc hkind, fresh_use]
    exact hf.fresh
  · rw [Uses.keys_snoc h k kind]
    unfold TwoQueues.use
    split
    case isTrue => exact hwf.hot.inOrder_touch hf.hot k
    case isFalse hnot => exact hf.hot.append_of_not_mem (mt hwf.hot.contains_iff.mpr hnot)

theorem Follows.erase (hf : q.Follows h) (hwf : q.WellFormed) (k : Key) : (q.erase k).Follows h :=
  ⟨hwf.fresh.inOrder_erase hf.fresh k, hwf.hot.inOrder_erase hf.hot k⟩

theorem Follows.take? (hf : q.Follows h) (hwf : q.WellFormed) (htake : q.take? = some (k, rest)) :
    rest.Follows h := by
  obtain ⟨fresh, -, hfound, rfl⟩ | ⟨hot, -, hfound, rfl⟩ := take?_cases htake
  · have hfresh := hf.fresh
    rw [(hwf.fresh.takeOldest? hfound).2] at hfresh
    exact ⟨hfresh.sublist (List.sublist_cons_self k _), hf.hot⟩
  · have hhot := hf.hot
    rw [(hwf.hot.takeOldest? hfound).2] at hhot
    exact ⟨hf.fresh, hhot.sublist (List.sublist_cons_self k _)⟩

/-- The key that goes is the one of the first queue that was inserted first, if that queue is beyond its share
or alone, and else the one of the second queue that was used first. -/
theorem Follows.first_of_take? (hf : q.Follows h) (hwf : q.WellFormed)
    (htake : q.take? = some (k, rest)) :
    if q.freshCapacity < q.fresh.size ∨ q.hot.toList = [] then
      k ∈ q.fresh.toList ∧ ∀ k' ∈ q.fresh.toList, k' ≠ k → Precedes (Uses.insertions h) k k'
    else
      k ∈ q.hot.toList ∧ ∀ k' ∈ q.hot.toList, k' ≠ k → Precedes (Uses.keys h) k k' := by
  obtain ⟨fresh, htakes, hfound, -⟩ | ⟨hot, htakes, hfound, -⟩ := take?_cases htake
  · rw [if_pos (takesFresh_iff.mp htakes)]
    have horder := hf.fresh
    rw [(hwf.fresh.takeOldest? hfound).2] at horder ⊢
    exact ⟨List.mem_cons_self, fun k' hk' hne => horder.precedes_of_cons hk' hne⟩
  · rw [if_neg (mt takesFresh_iff.mpr (by simp [htakes]))]
    have horder := hf.hot
    rw [(hwf.hot.takeOldest? hfound).2] at horder ⊢
    exact ⟨List.mem_cons_self, fun k' hk' hne => horder.precedes_of_cons hk' hne⟩

/-- A key that has not been inserted again is in the second queue if and only if it was remembered. -/
def Recalls (k : Key) (remembered : Prop) (q : TwoQueues) (h : List Use) : Prop :=
  k ∈ q.fresh.toList ++ q.hot.toList → ⟨k, .insertion⟩ ∉ h → (k ∈ q.hot.toList ↔ remembered)

variable {remembered : Prop}

/-- What happens to other keys makes no difference. -/
theorem Recalls.congr {r : TwoQueues} {h' : List Use} (hr : q.Recalls k remembered h)
    (hresident : k ∈ r.fresh.toList ++ r.hot.toList → k ∈ q.fresh.toList ++ q.hot.toList)
    (hhot : k ∈ r.hot.toList ↔ k ∈ q.hot.toList) (hsub : h ⊆ h') : r.Recalls k remembered h' := by
  intro hk hnot
  rw [hhot]
  exact hr (hresident hk) fun hmem => hnot (hsub hmem)

theorem Recalls.add (hr : q.Recalls k remembered h) (hwf : q.WellFormed)
    (hk' : k' ∉ q.fresh.toList ++ q.hot.toList) :
    (q.add k').Recalls k remembered (h ++ [⟨k', .insertion⟩]) := by
  by_cases heq : k = k'
  · subst heq
    intro _ hnot
    exact absurd List.mem_concat_self hnot
  · refine hr.congr (fun hk => ?_) (hwf.mem_hot_add_of_ne heq) (List.subset_append_left _ _)
    rw [(hwf.add hk').2.mem_iff, List.mem_cons] at hk
    exact hk.resolve_left heq

theorem Recalls.use (hr : q.Recalls k remembered h) (hwf : q.WellFormed) (u : Use) :
    (q.use u.key).Recalls k remembered (h ++ [u]) :=
  hr.congr (hwf.use u.key).2.mem_iff.mp (hwf.hot_use_perm u.key).mem_iff (List.subset_append_left _ _)

theorem Recalls.erase (hr : q.Recalls k remembered h) (hwf : q.WellFormed) (k' : Key) :
    (q.erase k').Recalls k remembered h := by
  by_cases heq : k = k'
  · subst heq
    intro hk
    rw [(hwf.erase k).2.mem_iff] at hk
    exact absurd hk hwf.nodup_residents.not_mem_erase
  · refine hr.congr (fun hk => ?_) (hwf.hot.mem_erase_of_ne heq) (List.Subset.refl h)
    exact List.mem_of_mem_erase ((hwf.erase k').2.mem_iff.mp hk)

theorem Recalls.take? (hr : q.Recalls k remembered h) (hwf : q.WellFormed)
    (htake : q.take? = some (k', rest)) : rest.Recalls k remembered h := by
  have hperm := (hwf.take? htake).2
  by_cases heq : k = k'
  · subst heq
    intro hk
    exact absurd hk (List.nodup_cons.mp (hperm.nodup_iff.mp hwf.nodup_residents)).1
  · refine hr.congr (fun hk => ?_) (hwf.mem_hot_of_take? htake heq) (List.Subset.refl h)
    rw [hperm.mem_iff]
    exact List.mem_cons_of_mem k' hk

end TwoQueues

namespace Policy

theorem keeps_twoQueues_follows : Keeps fun p h => ∃ q, p = twoQueues q ∧ q.Follows h where
  inserted := by
    rintro _ h k hp ⟨q, rfl, hf⟩ hk
    exact ⟨q.add k, rfl, hf.add hp hk⟩
  used := by
    rintro _ h k kind hp ⟨q, rfl, hf⟩ hkind
    exact ⟨q.use k, rfl, hf.use hp hkind k⟩
  removed := by
    rintro _ h k hp ⟨q, rfl, hf⟩
    exact ⟨q.erase k, rfl, hf.erase hp k⟩
  victim? := by
    rintro _ h draw k _ hp ⟨q, rfl, hf⟩ hvictim
    obtain ⟨r, htake, rfl⟩ := exists_taken hvictim
    exact ⟨r, rfl, hf.take? hp htake⟩
  cleared := by
    rintro _ h hp ⟨q, rfl, -⟩
    exact ⟨q.clear, rfl, by constructor <;> simp [TwoQueues.clear, InOrder.nil]⟩

theorem keeps_twoQueues_recalls (k : Key) (remembered : Prop) :
    Keeps fun p h => ∃ q, p = twoQueues q ∧ q.Recalls k remembered h where
  inserted := by
    rintro _ h k' hp ⟨q, rfl, hr⟩ hk'
    exact ⟨q.add k', rfl, hr.add hp hk'⟩
  used := by
    rintro _ h k' kind hp ⟨q, rfl, hr⟩ -
    exact ⟨q.use k', rfl, hr.use hp ⟨k', kind⟩⟩
  removed := by
    rintro _ h k' hp ⟨q, rfl, hr⟩
    exact ⟨q.erase k', rfl, hr.erase hp k'⟩
  victim? := by
    rintro _ h draw k' _ hp ⟨q, rfl, hr⟩ hvictim
    obtain ⟨r, htake, rfl⟩ := exists_taken hvictim
    exact ⟨r, rfl, hr.take? hp htake⟩
  cleared := by
    rintro _ h hp ⟨q, rfl, -⟩
    exact ⟨q.clear, rfl, fun hk => by simp [TwoQueues.clear] at hk⟩

end Policy

namespace Store

variable {s t : Store} {q : TwoQueues} {k : Key} {capacity : Nat} {op : Operation}

/-- Only making room in a full store brings a ghost, and it is the key that goes from the first queue. -/
theorem WellFormed.takesFresh_of_ghost (hs : s.WellFormed) (hpolicy : s.policy = .twoQueues q)
    (hk : k ∈ (s.apply op).policy.ghosts) (hnew : k ∉ q.ghosts.toList) :
    q.takesFresh = true ∧ ∃ draw k' v secondary rest, op = .put draw k' v secondary ∧ k' ∉ s.keys ∧
      s.isFull = true ∧ s.policy.victim? draw = some (k, rest) := by
  have hq := hs.policy
  rw [hpolicy] at hq
  rw [policy_apply] at hk
  have hreports := s.reports_callsOf op
  generalize s.callsOf op = calls at hk hreports
  cases hreports with
  | nothing =>
    rw [hpolicy] at hk
    exact absurd hk hnew
  | @used k' =>
    rw [hpolicy] at hk
    have hghost : k ∈ (q.use k').ghosts.toList := hk
    rw [TwoQueues.ghosts_use] at hghost
    exact absurd hghost hnew
  | @removed k' =>
    rw [hpolicy] at hk
    have hghost : k ∈ (q.ghosts.erase k').toList := hk
    rw [hq.ghosts.toList_erase] at hghost
    exact absurd (List.mem_of_mem_erase hghost) hnew
  | cleared =>
    rw [hpolicy] at hk
    have hghost : k ∈ q.clear.ghosts.toList := hk
    simp [TwoQueues.clear] at hghost
  | @inserted draw k' v secondary hop hk' =>
    cases hfull : s.isFull with
    | false =>
      rw [hfull, hpolicy] at hk
      exact absurd (hq.ghosts_add_subset k' hk) hnew
    | true =>
      obtain ⟨victim, rest, hvictim, -⟩ := hs.exists_victim hfull draw
      rw [hfull, if_pos rfl, Policy.applyAll_append] at hk
      have hghost : k ∈ ((s.policy.apply (.victim draw)).inserted k').ghosts := hk
      rw [Policy.apply, hvictim] at hghost
      have htaken := hvictim
      rw [hpolicy] at htaken
      obtain ⟨r, htake, rfl⟩ := Policy.exists_taken htaken
      have hghost := TwoQueues.WellFormed.ghosts_add_subset (hq.take? htake).1 k' hghost
      obtain ⟨rfl, htakes⟩ := (hq.mem_ghosts_or_of_take? htake hghost).resolve_left hnew
      exact ⟨htakes, draw, k', v, secondary, _, hop, hk', rfl, hvictim⟩

/-- A key is in the second queue if and only if it was remembered when it came last. -/
theorem WellFormed.mem_hot_iff (hs : s.WellFormed) {draw : Nat} {v : String}
    {secondary : List (Option Key)} {after : List Operation} (hrule : s.policy.rule = .twoQueues)
    (hk₀ : k ∉ s.keys) (hsecondary : secondary.length ≤ maxSecondaryIndexes)
    (hpolicy : (s.applyAll (.put draw k v secondary :: after)).policy = .twoQueues q)
    (hk : k ∈ q.fresh.toList ++ q.hot.toList)
    (hnot : ⟨k, .insertion⟩ ∉ (s.apply (.put draw k v secondary)).uses after) :
    k ∈ q.hot.toList ↔ k ∈ (s.makeRoom draw).policy.ghosts := by
  rw [mem_keys] at hk₀
  obtain ⟨t, hput⟩ : ∃ t, s.put draw k v secondary = .ok t := ⟨_, put_eq_ok hsecondary⟩
  have happly : s.apply (.put draw k v secondary) = t := by rw [Store.apply, hput]
  rw [applyAll_cons, happly] at hpolicy
  rw [happly] at hnot
  have hroom := hs.makeRoom draw
  have hfree := hroom.not_mem_residents (not_mem_makeRoom hk₀ draw)
  have hwf := hroom.policy
  obtain ⟨r, hr⟩ := Policy.exists_twoQueues_of_rule ((hs.rule_makeRoom draw).trans hrule)
  rw [hr, Policy.residents, List.mem_append, not_or] at hfree
  rw [hr] at hwf
  have hcame : ∃ b, t.policy = .twoQueues b ∧ b.Recalls k (k ∈ (s.makeRoom draw).policy.ghosts) [] := by
    refine ⟨r.add k, ?_, fun _ _ => ?_⟩
    · rw [policy_put_of_not_mem hput hk₀, hr]
      rfl
    · rw [TwoQueues.WellFormed.mem_hot_add hwf hfree.2, hr, Policy.ghosts]
  obtain ⟨b, hb, hrecalls⟩ :=
    (hs.put hput).keeps_applyAll (Policy.keeps_twoQueues_recalls k _) hcame after
  obtain rfl : q = b := Policy.twoQueues.inj (hpolicy.symm.trans hb)
  exact hrecalls hk hnot

theorem WellFormed.exists_twoQueues_accounts (hs : s.WellFormed) (hrule : s.policy.rule = .twoQueues)
    (hb : s.policy.Bounded capacity) :
    ∃ q, s.policy = .twoQueues q ∧ q.Bounded capacity ∧ q.Accounts capacity s.keys := by
  obtain ⟨q, hpolicy⟩ := Policy.exists_twoQueues_of_rule hrule
  have hwf := hs.policy
  have hresidents := hs.residents (by rw [← hs.rule, hrule]; nofun)
  rw [hpolicy] at hwf hresidents hb
  exact ⟨q, hpolicy, hb, hwf.nodup, hresidents, hb.ghostCapacity ▸ hb.ghosts⟩

/-- After every run by the rule 2QUEUE, and also while room is made, no key is in two of the queues and the
ghosts, the two queues hold the keys of the store, and there are no more ghosts than half of the capacity, or
one. A key of the store is in the second queue if and only if it was a ghost when it came last: a read or an
overwriting leaves the first queue as it is, and the second one its keys. The first queue is in the order of
insertions and the second in the order of uses. So the key to go is the one of the first queue that was
inserted first, if that queue is beyond a quarter of the capacity, and beyond one, or the only one with keys,
and else the one of the second queue whose latest use is the earliest. The first kind becomes a ghost, and
nothing else does. -/
theorem two_queues_of_run (hash : RowHash) {capacity : Nat} (hcapacity : 1 ≤ capacity)
    (ops : List Operation) :
    ∃ s₀ q, create hash .twoQueues capacity = .ok s₀ ∧
      let s := s₀.applyAll ops
      let h := s₀.uses ops
      let fromFresh := max 1 (capacity / 4) < q.fresh.size ∨ q.hot.toList = []
      s.policy = .twoQueues q ∧ q.Accounts capacity s.keys ∧
      (∀ draw, ∃ r, (s.evict draw).policy = .twoQueues r ∧ r.Accounts capacity (s.evict draw).keys) ∧
      (∀ k ∈ s.keys, ∃ before draw v secondary after,
        ops = before ++ .put draw k v secondary :: after ∧
        secondary.length ≤ maxSecondaryIndexes ∧ k ∉ (s₀.applyAll before).keys ∧
        ⟨k, .insertion⟩ ∉ ((s₀.applyAll before).apply (.put draw k v secondary)).uses after ∧
        (k ∈ q.hot.toList ↔ k ∈ ((s₀.applyAll before).makeRoom draw).policy.ghosts)) ∧
      (∀ op u, s.use? op = some u → u.kind ≠ .insertion →
        ∃ r, (s.apply op).policy = .twoQueues r ∧
          r.fresh.toList = q.fresh.toList ∧ r.hot.toList.Perm q.hot.toList) ∧
      q.fresh.toList.Pairwise (Precedes (Uses.insertions h)) ∧
      q.hot.toList.Pairwise (Precedes (Uses.keys h)) ∧
      (∀ draw, (s.policy.victim? draw = none ↔ s.keys = []) ∧
        ∀ victim rest, s.policy.victim? draw = some (victim, rest) →
          (∀ k v secondary t, k ∉ s.keys → s.size = capacity → s.put draw k v secondary = .ok t →
            t.keys.Perm (k :: s.keys.erase victim)) ∧
          (victim ∈ rest.ghosts ↔ fromFresh) ∧
          if fromFresh then
            victim ∈ q.fresh.toList ∧
              ∀ k ∈ q.fresh.toList, k ≠ victim → Precedes (Uses.insertions h) victim k
          else
            victim ∈ q.hot.toList ∧
              ∀ k ∈ q.hot.toList, k ≠ victim → Precedes (Uses.keys h) victim k) ∧
      ∀ op, ∀ k ∈ (s.apply op).policy.ghosts, k ∉ q.ghosts.toList →
        fromFresh ∧ ∃ draw k' v secondary rest, op = .put draw k' v secondary ∧ k' ∉ s.keys ∧
          s.size = capacity ∧ s.policy.victim? draw = some (k, rest) := by
  have hs₀ : (fresh hash .twoQueues capacity).WellFormed := wellFormed_fresh hash (.inr hcapacity)
  obtain ⟨hs, hrule, hcap, hb⟩ := reached_applyAll hash (nofun : EvictionRule.twoQueues ≠ .none) hcapacity ops
  obtain ⟨q, hpolicy, hbounded, haccounts⟩ := hs.exists_twoQueues_accounts hrule hb
  obtain ⟨q', hpolicy', hf⟩ := hs₀.keeps_applyAll Policy.keeps_twoQueues_follows
    ⟨_, rfl, TwoQueues.follows_ofCapacity capacity⟩ ops
  obtain rfl : q = q' := Policy.twoQueues.inj (hpolicy.symm.trans hpolicy')
  have hwf := hs.policy
  rw [hpolicy] at hwf
  rw [List.nil_append] at hf
  refine ⟨_, q, create_eq_ok_iff.mpr ⟨.inr hcapacity, rfl⟩, ?_⟩
  intro s h fromFresh
  have htakes : q.takesFresh = true ↔ fromFresh := by
    rw [TwoQueues.takesFresh_iff, hbounded.freshCapacity]
  refine ⟨hpolicy, haccounts, fun draw => ?_, fun k hk => ?_, fun op u hu hkind => ?_,
    hf.fresh.pairwise, hf.hot.pairwise, fun draw => ⟨?_, fun victim rest hvictim => ?_⟩,
    fun op k hk hnew => ?_⟩
  · have hb' := hs.keeps_evict (h := []) (Policy.keeps_bounded capacity) hb draw
    obtain ⟨r, hr, -, haccounts'⟩ :=
      (hs.evict draw).exists_twoQueues_accounts ((hs.rule_evict draw).trans hrule) hb'
    exact ⟨r, hr, haccounts'⟩
  · obtain ⟨before, draw, v, secondary, after, rfl, hsecondary, hnew, hnot⟩ :=
      hs₀.exists_last_insertion (by simp [Store.fresh, keys]) hk
    refine ⟨before, draw, v, secondary, after, rfl, hsecondary, hnew, hnot, ?_⟩
    rw [applyAll_append] at hpolicy
    have hrule' := (reached_applyAll hash (nofun : EvictionRule.twoQueues ≠ .none) hcapacity before).2.1
    exact (hs₀.applyAll before).mem_hot_iff hrule' hnew hsecondary hpolicy
      (haccounts.residents.mem_iff.mpr hk) hnot
  · refine ⟨q.use u.key, ?_, by rw [TwoQueues.fresh_use], hwf.hot_use_perm u.key⟩
    rw [policy_apply, callsOf_of_use? hu hkind, hpolicy]
    rfl
  · rw [hs.policy.victim?_eq_none_iff, ← List.length_eq_zero_iff, ← List.length_eq_zero_iff, hpolicy]
    rw [Policy.residents, haccounts.residents.length_eq]
  · refine ⟨fun k v secondary t hk hsize hput => ?_, ?_⟩
    · have hfull := (hs.isFull_iff_size_eq hcap).mpr hsize
      exact hs.keys_put_of_victim? hput (mt mem_keys.mpr hk) hfull hvictim
    rw [hpolicy] at hvictim
    obtain ⟨r, htake, rfl⟩ := Policy.exists_taken hvictim
    refine ⟨(hwf.mem_ghosts_self_of_take? hbounded htake).trans htakes, ?_⟩
    have hfirst := hf.first_of_take? hwf htake
    rwa [hbounded.freshCapacity] at hfirst
  · obtain ⟨htakesFresh, draw, k', v, secondary, rest, hop, hk', hfull, hvictim⟩ :=
      hs.takesFresh_of_ghost hpolicy hk hnew
    exact ⟨htakes.mp htakesFresh, draw, k', v, secondary, rest, hop, hk',
      (hs.isFull_iff_size_eq hcap).mp hfull, hvictim⟩

theorem two_queues_of_run_ghost :
    1 ≤ 2 ∧ ∃ s₀ q, create SipHash.rowHash .twoQueues 2 = .ok s₀ ∧
      let ops : List Operation :=
        [.put 0 "a" "1" [], .put 0 "b" "2" [some "x"], .getBy .one "x", .put 0 "c" "3" [], .remove "b",
          .put 0 "a" "4" []]
      let s := s₀.applyAll ops
      s.policy = .twoQueues q ∧ q.Accounts 2 s.keys ∧ q.hot.isEmpty = false ∧ q.fresh.size = 1 ∧
        ∃ victim rest, s.policy.victim? 0 = some (victim, rest) ∧ victim ∉ rest.ghosts ∧
          victim ∈ q.hot.toList ∧
          ∀ k ∈ q.hot.toList, k ≠ victim → Precedes (Uses.keys (s₀.uses ops)) victim k := by
  have hcapacity : 1 ≤ 2 := by decide
  obtain ⟨s₀, q, hcreate, hpolicy, haccounts, -, -, -, -, -, hvictim, -⟩ :=
    two_queues_of_run SipHash.rowHash hcapacity
      [.put 0 "a" "1" [], .put 0 "b" "2" [some "x"], .getBy .one "x", .put 0 "c" "3" [], .remove "b",
        .put 0 "a" "4" []]
  refine ⟨hcapacity, s₀, q, hcreate, ?_⟩
  obtain ⟨-, rfl⟩ := create_eq_ok_iff.mp hcreate
  intro ops s
  have hkeys : s.keys = ["a", "c"] := by cbv
  have hqueues : (s.policy.twoQueues?.map fun q => (q.hot.isEmpty, q.fresh.size)) = some (false, 1) := by
    cbv
  obtain ⟨r, hr, heq⟩ := Option.map_eq_some_iff.mp hqueues
  obtain rfl : q = r := Policy.twoQueues.inj (hpolicy.symm.trans (Policy.twoQueues?_eq_some_iff.mp hr))
  obtain ⟨hhot, hsize⟩ := Prod.mk.inj heq
  have hfromHot : ¬ (max 1 (2 / 4) < q.fresh.size ∨ q.hot.toList = []) := by
    rw [hsize, ← Recency.isEmpty_iff, hhot]
    decide
  have hne : s.keys ≠ [] := by simp [hkeys]
  obtain ⟨hnone, hfirst⟩ := hvictim 0
  obtain ⟨⟨victim, rest⟩, hsome⟩ := Option.ne_none_iff_exists'.mp (mt hnone.mp hne)
  obtain ⟨-, hghost, hgoes⟩ := hfirst victim rest hsome
  rw [if_neg hfromHot] at hgoes
  exact ⟨hpolicy, haccounts, hhot, hsize, victim, rest, hsome, mt hghost.mp hfromHot, hgoes⟩

end Store

end CacheServer
