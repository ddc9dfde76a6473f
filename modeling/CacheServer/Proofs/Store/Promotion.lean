import CacheServer.Proofs.Eviction.Order
import CacheServer.Proofs.Store.Readmission

/-!
The two lists of the rule ARC, as the uses of keys in a run tell them. A key is in the first until it is
used again, unless it was remembered as it came. The first list is in the order of insertions and the second
in the order of uses, so the uses tell which key goes.
-/

namespace CacheServer

namespace Adaptive

variable {a rest : Adaptive} {k k' : Key} {h : List Use}

/-- Whether a key is in one of the two lists is the same in both states. -/
structure SameAt (k : Key) (a b : Adaptive) : Prop where
  recent : k ∈ b.recent.toList ↔ k ∈ a.recent.toList
  frequent : k ∈ b.frequent.toList ↔ k ∈ a.frequent.toList

theorem WellFormed.sameAt_add (hwf : a.WellFormed) (hne : k ≠ k') : SameAt k a (a.add k') := by
  unfold Adaptive.add
  split
  · exact ⟨.rfl, hwf.frequent.mem_touch_of_ne hne⟩
  · split
    · exact ⟨.rfl, hwf.frequent.mem_touch_of_ne hne⟩
    · exact ⟨hwf.recent.mem_touch_of_ne hne, .rfl⟩

theorem WellFormed.sameAt_use (hwf : a.WellFormed) (hne : k ≠ k') : SameAt k a (a.use k') := by
  unfold Adaptive.use
  split
  · exact ⟨hwf.recent.mem_erase_of_ne hne, hwf.frequent.mem_touch_of_ne hne⟩
  · split
    · exact ⟨.rfl, hwf.frequent.mem_touch_of_ne hne⟩
    · exact ⟨.rfl, .rfl⟩

theorem WellFormed.sameAt_erase (hwf : a.WellFormed) (hne : k ≠ k') : SameAt k a (a.erase k') :=
  ⟨hwf.recent.mem_erase_of_ne hne, hwf.frequent.mem_erase_of_ne hne⟩

theorem WellFormed.sameAt_of_take? (hwf : a.WellFormed) (htake : a.take? = some (k', rest))
    (hne : k ≠ k') : SameAt k a rest := by
  obtain ⟨recent, -, hfound, rfl⟩ | ⟨frequent, -, hfound, rfl⟩ := take?_cases htake
  · refine ⟨?_, by rw [frequent_trimGhosts]⟩
    rw [recent_trimGhosts]
    exact hwf.recent.mem_of_takeOldest? hfound hne
  · refine ⟨by rw [recent_trimGhosts], ?_⟩
    rw [frequent_trimGhosts]
    exact hwf.frequent.mem_of_takeOldest? hfound hne

/-- A key that is used is in the second list. -/
theorem WellFormed.mem_frequent_use (hwf : a.WellFormed)
    (hk : k ∈ a.recent.toList ++ a.frequent.toList) : k ∈ (a.use k).frequent.toList := by
  unfold Adaptive.use
  split
  case isTrue hrecent => simp [hwf.frequent.toList_touch]
  case isFalse hrecent =>
    have hfrequent : k ∈ a.frequent.toList :=
      (List.mem_append.mp hk).resolve_left (mt hwf.recent.contains_iff.mpr hrecent)
    rw [if_pos (hwf.frequent.contains_iff.mpr hfrequent)]
    simp [hwf.frequent.toList_touch]

/-- The four lists in a store with these keys. -/
structure Accounts (capacity : Nat) (keys : List Key) (a : Adaptive) : Prop where
  /-- No key is in two lists, or in one of them twice. -/
  nodup : (a.recent.toList ++ a.frequent.toList ++ a.recentGhosts.toList ++
    a.frequentGhosts.toList).Nodup
  residents : (a.recent.toList ++ a.frequent.toList).Perm keys
  ghosts : a.recentGhosts.size + a.frequentGhosts.size ≤ capacity
  target : a.target ≤ capacity
  /-- As a ghost comes back the target moves by a quotient of sizes, and the divisor is not zero. -/
  divisor : ∀ k, (a.recentGhosts.contains k = true → a.recentGhosts.size ≠ 0) ∧
    (a.frequentGhosts.contains k = true → a.frequentGhosts.size ≠ 0)

theorem WellFormed.accounts {capacity : Nat} {keys : List Key} (hwf : a.WellFormed)
    (hb : a.Bounded capacity) (hresidents : (a.recent.toList ++ a.frequent.toList).Perm keys) :
    a.Accounts capacity keys where
  nodup := hwf.nodup
  residents := hresidents
  ghosts := hb.ghosts
  target := hb.target
  divisor _ :=
    ⟨hwf.recentGhosts.size_ne_zero_of_contains, hwf.frequentGhosts.size_ne_zero_of_contains⟩

/-- What is said of the lists and the uses so far stays true in every call. -/
structure Keeps (I : Adaptive → List Use → Prop) : Prop where
  add : ∀ {a h k}, a.WellFormed → I a h → k ∉ a.recent.toList ++ a.frequent.toList →
    I (a.add k) (h ++ [⟨k, .insertion⟩])
  use : ∀ {a h k kind}, a.WellFormed → I a h → kind ≠ .insertion → I (a.use k) (h ++ [⟨k, kind⟩])
  erase : ∀ {a h} k, a.WellFormed → I a h → I (a.erase k) h
  take? : ∀ {a h k rest}, a.WellFormed → I a h → a.take? = some (k, rest) → I rest h
  clear : ∀ {a h}, I a h → I a.clear h

/-- The first list is in the order of insertions, and the second in the order of uses. -/
structure Follows (a : Adaptive) (h : List Use) : Prop where
  recent : InOrder (Uses.insertions h) a.recent.toList
  frequent : InOrder (Uses.keys h) a.frequent.toList

theorem follows_ofCapacity (capacity : Nat) : (ofCapacity capacity).Follows [] := by
  constructor <;> simp [ofCapacity, InOrder.nil]

theorem Follows.add (hf : a.Follows h) (hwf : a.WellFormed)
    (hk : k ∉ a.recent.toList ++ a.frequent.toList) :
    (a.add k).Follows (h ++ [⟨k, .insertion⟩]) := by
  rw [List.mem_append, not_or] at hk
  have hrecent := hf.recent.append_of_not_mem hk.1
  have hfrequent := hwf.frequent.inOrder_touch hf.frequent k
  have hrecent' := hwf.recent.inOrder_touch hf.recent k
  have hfrequent' := hf.frequent.append_of_not_mem hk.2
  rw [← Uses.insertions_snoc_insertion] at hrecent hrecent'
  rw [← Uses.keys_snoc h k .insertion] at hfrequent hfrequent'
  unfold Adaptive.add
  split
  · exact ⟨hrecent, hfrequent⟩
  · split
    · exact ⟨hrecent, hfrequent⟩
    · exact ⟨hrecent', hfrequent'⟩

theorem Follows.use (hf : a.Follows h) (hwf : a.WellFormed) {kind : UseKind}
    (hkind : kind ≠ .insertion) (k : Key) : (a.use k).Follows (h ++ [⟨k, kind⟩]) := by
  have hrecent := hf.recent
  have hfrequent := hwf.frequent.inOrder_touch hf.frequent k
  rw [← Uses.insertions_snoc hkind h k] at hrecent
  rw [← Uses.keys_snoc h k kind] at hfrequent
  unfold Adaptive.use
  split
  · exact ⟨hwf.recent.inOrder_erase hrecent k, hfrequent⟩
  · split
    case isTrue => exact ⟨hrecent, hfrequent⟩
    case isFalse hnot =>
      have hother := hf.frequent.append_of_not_mem (mt hwf.frequent.contains_iff.mpr hnot)
      rw [← Uses.keys_snoc h k kind] at hother
      exact ⟨hrecent, hother⟩

theorem Follows.erase (hf : a.Follows h) (hwf : a.WellFormed) (k : Key) : (a.erase k).Follows h :=
  ⟨hwf.recent.inOrder_erase hf.recent k, hwf.frequent.inOrder_erase hf.frequent k⟩

theorem Follows.take? (hf : a.Follows h) (hwf : a.WellFormed) (htake : a.take? = some (k, rest)) :
    rest.Follows h := by
  obtain ⟨recent, -, hfound, rfl⟩ | ⟨frequent, -, hfound, rfl⟩ := take?_cases htake
  · have hsub : recent.toList.Sublist a.recent.toList := by
      rw [(hwf.recent.takeOldest? hfound).2]
      exact List.sublist_cons_self k _
    refine ⟨?_, by rw [frequent_trimGhosts]; exact hf.frequent⟩
    rw [recent_trimGhosts]
    exact hf.recent.sublist hsub
  · have hsub : frequent.toList.Sublist a.frequent.toList := by
      rw [(hwf.frequent.takeOldest? hfound).2]
      exact List.sublist_cons_self k _
    refine ⟨by rw [recent_trimGhosts]; exact hf.recent, ?_⟩
    rw [frequent_trimGhosts]
    exact hf.frequent.sublist hsub

theorem keeps_follows : Keeps Follows where
  add hwf hf hk := hf.add hwf hk
  use hwf hf hkind := hf.use hwf hkind _
  erase k hwf hf := hf.erase hwf k
  take? hwf hf htake := hf.take? hwf htake
  clear _ := by constructor <;> simp [clear, InOrder.nil]

/-- The key that goes is the one of the first list that was inserted first, as long as that list has keys and
is beyond the target or alone, and else the one of the second list that was used first. -/
theorem Follows.first_of_take? (hf : a.Follows h) (hwf : a.WellFormed) (htake : a.take? = some (k, rest)) :
    (a.takesRecent = true → k ∈ a.recent.toList ∧
      ∀ k' ∈ a.recent.toList, k' ≠ k → Precedes (Uses.insertions h) k k') ∧
    (a.takesRecent = false → k ∈ a.frequent.toList ∧
      ∀ k' ∈ a.frequent.toList, k' ≠ k → Precedes (Uses.keys h) k k') := by
  obtain ⟨recent, htakes, hfound, -⟩ | ⟨frequent, htakes, hfound, -⟩ := take?_cases htake
  · have horder := hf.recent
    rw [(hwf.recent.takeOldest? hfound).2] at horder ⊢
    simp only [htakes, reduceCtorEq, false_implies, and_true, true_implies]
    exact ⟨List.mem_cons_self, fun k' hk' hne => horder.precedes_of_cons hk' hne⟩
  · have horder := hf.frequent
    rw [(hwf.frequent.takeOldest? hfound).2] at horder ⊢
    simp only [htakes, reduceCtorEq, false_implies, true_and, true_implies]
    exact ⟨List.mem_cons_self, fun k' hk' hne => horder.precedes_of_cons hk' hne⟩

/-- A key that has not been inserted again is in the second list if and only if it was remembered or has been
used since. -/
def Promotes (k : Key) (remembered : Prop) (a : Adaptive) (h : List Use) : Prop :=
  k ∈ a.recent.toList ++ a.frequent.toList → ⟨k, .insertion⟩ ∉ h →
    (k ∈ a.frequent.toList ↔ remembered ∨ ∃ u ∈ h, u.key = k)

variable {remembered : Prop}

theorem SameAt.promotes (hsame : SameAt k a rest) (hp : a.Promotes k remembered h) :
    rest.Promotes k remembered h := by
  intro hk hnot
  rw [List.mem_append, hsame.recent, hsame.frequent, ← List.mem_append] at hk
  rw [hsame.frequent]
  exact hp hk hnot

/-- The use of another key makes no difference. -/
theorem Promotes.snoc_of_ne (hp : a.Promotes k remembered h) (hne : k ≠ k') (kind : UseKind) :
    a.Promotes k remembered (h ++ [⟨k', kind⟩]) := by
  intro hk hnot
  rw [hp hk fun hmem => hnot (List.mem_append_left _ hmem)]
  simp [hne.symm, or_and_right, exists_or]

theorem keeps_promotes (k : Key) (remembered : Prop) : Keeps (Promotes k remembered) where
  add {a h k'} hwf hp _ := by
    -- Only a call for the key itself can move it, and this one inserts it again.
    by_cases heq : k = k'
    · subst heq
      intro _ hnot
      exact absurd List.mem_concat_self hnot
    · exact ((hwf.sameAt_add heq).promotes hp).snoc_of_ne heq .insertion
  use {a h k' kind} hwf hp _ := by
    by_cases heq : k = k'
    · subst heq
      intro hk _
      have hmem := hwf.mem_frequent_use ((hwf.use k).2.mem_iff.mp hk)
      exact iff_of_true hmem (.inr ⟨⟨k, kind⟩, List.mem_concat_self, rfl⟩)
    · exact ((hwf.sameAt_use heq).promotes hp).snoc_of_ne heq kind
  erase {a h} k' hwf hp := by
    by_cases heq : k = k'
    · subst heq
      intro hk
      rw [(hwf.erase k).2.mem_iff] at hk
      exact absurd hk hwf.nodup_residents.not_mem_erase
    · exact (hwf.sameAt_erase heq).promotes hp
  take? {a h k' rest} hwf hp htake := by
    by_cases heq : k = k'
    · subst heq
      intro hk
      have hnodup := (hwf.take? htake).2.nodup_iff.mp hwf.nodup_residents
      exact absurd hk (List.nodup_cons.mp hnodup).1
    · exact (hwf.sameAt_of_take? htake heq).promotes hp
  clear _ hk := by simp [clear] at hk

end Adaptive

namespace Policy

/-- What is said of the lists of the rule ARC, and nothing by the other rules. -/
def OnArc (I : Adaptive → List Use → Prop) : Policy → List Use → Prop
  | .arc a, h => I a h
  | _, _ => True

theorem keeps_onArc {I : Adaptive → List Use → Prop} (hI : Adaptive.Keeps I) : Keeps (OnArc I) where
  inserted {p h k} hp hh hk := by
    cases p with
    | arc a => exact hI.add hp hh hk
    | _ => trivial
  used {p h k kind} hp hh hkind := by
    cases p with
    | arc a => exact hI.use hp hh hkind
    | _ => trivial
  removed {p h} k hp hh := by
    cases p with
    | arc a => exact hI.erase k hp hh
    | _ => trivial
  victim? {p h draw k rest} hp hh hvictim := by
    cases p with
    | none => cases hvictim
    | arc a =>
      obtain ⟨b, htake, rfl⟩ := exists_taken hvictim
      exact hI.take? hp hh htake
    | _ =>
      obtain ⟨-, -, rfl⟩ := exists_taken hvictim
      trivial
  cleared {p h} _ hh := by
    cases p with
    | arc a => exact hI.clear hh
    | _ => trivial

end Policy

namespace Store

variable {s t : Store} {k : Key} {capacity : Nat}

/-- As a key comes, it is in the second list if and only if it was remembered when there was room for
it. -/
theorem WellFormed.promotes_put {draw : Nat} {v : String} {secondary : List (Option Key)}
    (hs : s.WellFormed) (hk : k ∉ s.entries) (hput : s.put draw k v secondary = .ok t) :
    t.policy.OnArc (Adaptive.Promotes k (k ∈ (s.makeRoom draw).policy.ghosts)) [] := by
  have hroom := hs.makeRoom draw
  have hwf := hroom.policy
  have hfree := hroom.not_mem_residents (not_mem_makeRoom hk draw)
  rw [policy_put_of_not_mem hput hk]
  cases hpolicy : (s.makeRoom draw).policy with
  | arc b =>
    rw [hpolicy] at hwf hfree
    rw [Policy.residents, List.mem_append, not_or] at hfree
    intro _ _
    rw [Adaptive.WellFormed.mem_frequent_add hwf hfree.2]
    simp [Policy.ghosts]
  | _ => trivial

/-- A key is in the second list if and only if it was remembered when it came or has been used since. -/
theorem WellFormed.mem_frequent_iff {a : Adaptive} (hs : s.WellFormed) {draw : Nat} {v : String}
    {secondary : List (Option Key)} {after : List Operation} (hk₀ : k ∉ s.keys)
    (hsecondary : secondary.length ≤ maxSecondaryIndexes)
    (hpolicy : (s.applyAll (.put draw k v secondary :: after)).policy = .arc a)
    (hk : k ∈ a.recent.toList ++ a.frequent.toList)
    (hnot : ⟨k, .insertion⟩ ∉ (s.apply (.put draw k v secondary)).uses after) :
    k ∈ a.frequent.toList ↔ k ∈ (s.makeRoom draw).policy.ghosts ∨
      ∃ u ∈ (s.apply (.put draw k v secondary)).uses after, u.key = k := by
  obtain ⟨t, hput⟩ : ∃ t, s.put draw k v secondary = .ok t := ⟨_, put_eq_ok hsecondary⟩
  have happly : s.apply (.put draw k v secondary) = t := by rw [Store.apply, hput]
  rw [applyAll_cons, happly] at hpolicy
  rw [happly] at hnot ⊢
  have hpromotes := (hs.put hput).keeps_applyAll (Policy.keeps_onArc (Adaptive.keeps_promotes k _))
    (hs.promotes_put (mt mem_keys.mpr hk₀) hput) after
  rw [hpolicy] at hpromotes
  exact hpromotes hk hnot

theorem WellFormed.exists_accounts (hs : s.WellFormed) (hrule : s.policy.rule = .arc)
    (hb : s.policy.Bounded capacity) :
    ∃ a, s.policy = .arc a ∧ a.Accounts capacity s.keys := by
  obtain ⟨a, hpolicy⟩ := Policy.exists_arc_of_rule hrule
  have hwf := hs.policy
  have hresidents := hs.residents (by rw [← hs.rule, hrule]; nofun)
  rw [hpolicy] at hwf hresidents hb
  exact ⟨a, hpolicy, Adaptive.WellFormed.accounts hwf hb hresidents⟩

/-- After every run by the rule ARC, and also while room is made, no key is in two of the four lists, the
first two hold the keys of the store, and ghosts and target stay within the capacity. To trim the ghosts takes
a loop that ends. A key of the store is in the second list if and only if it was a ghost when it came last or
has been used since. The first list is in the order of insertions and the second in the order of uses. So the
key to go is the one of the first list that was inserted first, if that list has keys and is beyond its target
or the only one with keys, and else the one of the second list whose latest use is the earliest. -/
theorem arc_lists_of_run (hash : RowHash) {capacity : Nat} (hcapacity : 1 ≤ capacity)
    (ops : List Operation) :
    ∃ s₀ a, create hash .arc capacity = .ok s₀ ∧
      let s := s₀.applyAll ops
      let h := s₀.uses ops
      s.policy = .arc a ∧ a.Accounts capacity s.keys ∧
      (∀ draw, ∃ b, (s.evict draw).policy = .arc b ∧ b.Accounts capacity (s.evict draw).keys) ∧
      (∀ b c : Adaptive, b.Trims c ↔ c = b.trimGhosts) ∧
      (∀ k ∈ s.keys, ∃ before draw v secondary after,
        ops = before ++ .put draw k v secondary :: after ∧
        secondary.length ≤ maxSecondaryIndexes ∧ k ∉ (s₀.applyAll before).keys ∧
        let later := ((s₀.applyAll before).apply (.put draw k v secondary)).uses after
        ⟨k, .insertion⟩ ∉ later ∧
        (k ∈ a.frequent.toList ↔
          k ∈ ((s₀.applyAll before).makeRoom draw).policy.ghosts ∨ ∃ u ∈ later, u.key = k)) ∧
      a.recent.toList.Pairwise (Precedes (Uses.insertions h)) ∧
      a.frequent.toList.Pairwise (Precedes (Uses.keys h)) ∧
      ∀ draw, (s.policy.victim? draw = none ↔ s.keys = []) ∧
        ∀ victim rest, s.policy.victim? draw = some (victim, rest) →
          if a.recent.toList ≠ [] ∧ (a.target < a.recent.size ∨ a.frequent.toList = []) then
            victim ∈ a.recent.toList ∧
              ∀ k ∈ a.recent.toList, k ≠ victim → Precedes (Uses.insertions h) victim k
          else
            victim ∈ a.frequent.toList ∧
              ∀ k ∈ a.frequent.toList, k ≠ victim → Precedes (Uses.keys h) victim k := by
  have hs₀ : (fresh hash .arc capacity).WellFormed := wellFormed_fresh hash (.inr hcapacity)
  obtain ⟨hs, hrule, -, hb⟩ := reached_applyAll hash (nofun : EvictionRule.arc ≠ .none) hcapacity ops
  obtain ⟨a, hpolicy, haccounts⟩ := hs.exists_accounts hrule hb
  have hf := hs₀.keeps_applyAll (Policy.keeps_onArc Adaptive.keeps_follows)
    (Adaptive.follows_ofCapacity capacity) ops
  have hwf := hs.policy
  rw [hpolicy] at hf hwf
  rw [List.nil_append] at hf
  refine ⟨_, a, create_eq_ok_iff.mpr ⟨.inr hcapacity, rfl⟩, ?_⟩
  intro s h
  refine ⟨hpolicy, haccounts, fun draw => ?_, fun b c => Adaptive.trims_iff, fun k hk => ?_,
    hf.recent.pairwise, hf.frequent.pairwise, fun draw => ⟨?_, fun victim rest hvictim => ?_⟩⟩
  · have hb' := hs.keeps_evict (h := []) (Policy.keeps_bounded capacity) hb draw
    exact (hs.evict draw).exists_accounts ((hs.rule_evict draw).trans hrule) hb'
  · obtain ⟨before, draw, v, secondary, after, rfl, hsecondary, hnew, hnot⟩ :=
      hs₀.exists_last_insertion (by simp [fresh, keys]) hk
    refine ⟨before, draw, v, secondary, after, rfl, hsecondary, hnew, hnot, ?_⟩
    rw [applyAll_append] at hpolicy
    exact (hs₀.applyAll before).mem_frequent_iff hnew hsecondary hpolicy
      (haccounts.residents.mem_iff.mpr hk) hnot
  · rw [hs.policy.victim?_eq_none_iff, ← List.length_eq_zero_iff, ← List.length_eq_zero_iff, hpolicy]
    rw [Policy.residents, haccounts.residents.length_eq]
  · rw [hpolicy] at hvictim
    obtain ⟨b, htake, -⟩ := Policy.exists_taken hvictim
    obtain ⟨hrecent, hfrequent⟩ := hf.first_of_take? hwf htake
    split
    case isTrue htakes => exact hrecent (Adaptive.takesRecent_iff.mpr htakes)
    case isFalse htakes =>
      exact hfrequent (Bool.eq_false_iff.mpr (mt Adaptive.takesRecent_iff.mp htakes))

theorem arc_lists_of_run_ghost :
    1 ≤ 2 ∧ ∃ s₀ a, create SipHash.rowHash .arc 2 = .ok s₀ ∧
      let ops : List Operation :=
        [.put 0 "a" "1" [some "x"], .put 0 "b" "2" [], .getBy .one "x", .put 0 "c" "3" [], .put 0 "b" "4" []]
      let s := s₀.applyAll ops
      s.policy = .arc a ∧ a.Accounts 2 s.keys ∧ a.recent.toList = [] ∧
        ∃ victim rest, s.policy.victim? 0 = some (victim, rest) ∧ victim ∈ a.frequent.toList ∧
          ∀ k ∈ a.frequent.toList, k ≠ victim → Precedes (Uses.keys (s₀.uses ops)) victim k := by
  have hcapacity : 1 ≤ 2 := by decide
  obtain ⟨s₀, a, hcreate, hpolicy, haccounts, -, -, -, -, -, hvictim⟩ :=
    arc_lists_of_run SipHash.rowHash hcapacity
      [.put 0 "a" "1" [some "x"], .put 0 "b" "2" [], .getBy .one "x", .put 0 "c" "3" [], .put 0 "b" "4" []]
  refine ⟨hcapacity, s₀, a, hcreate, ?_⟩
  obtain ⟨-, rfl⟩ := create_eq_ok_iff.mp hcreate
  intro ops s
  have hkeys : s.keys = ["a", "b"] := by cbv
  have hlists : (s.policy.adaptive?.map fun a => a.recent.isEmpty) = some true := by cbv
  obtain ⟨b, hb, hempty⟩ := Option.map_eq_some_iff.mp hlists
  obtain rfl : a = b := Policy.arc.inj (hpolicy.symm.trans (Policy.adaptive?_eq_some_iff.mp hb))
  have hrecent : a.recent.toList = [] := Recency.isEmpty_iff.mp hempty
  have hne : s.keys ≠ [] := by simp [hkeys]
  obtain ⟨hnone, hfirst⟩ := hvictim 0
  obtain ⟨⟨victim, rest⟩, hsome⟩ := Option.ne_none_iff_exists'.mp (mt hnone.mp hne)
  have hgoes := hfirst victim rest hsome
  rw [if_neg (by simp [hrecent])] at hgoes
  exact ⟨hpolicy, haccounts, hrecent, victim, rest, hsome, hgoes⟩

end Store

end CacheServer
