import CacheServer.Proofs.Eviction.Contest
import CacheServer.Proofs.Store.Calls

/-!
The contest for a place in main by the rule TINYLFU. The window of a full store is never empty, so a key that
comes there finds an oldest key of the window, and a key of main goes only to one that has a higher estimate.
-/

namespace CacheServer.Store

variable {s t : Store} {a : Admission} {l : List Key} {k : Key} {capacity : Nat} {op : Operation}
  {calls : List Call} {draw : Nat} {v : String} {secondary : List (Option Key)}

theorem WellFormed.length_residents (hs : s.WellFormed) (hrule : s.rule ≠ .none) :
    s.policy.residents.length = s.size := by
  rw [(hs.residents hrule).length_eq, length_keys]

/-- The window of a full store has keys still. A removal can take its last one, but then there is room. -/
theorem Reports.window_ne_nil (h : s.Reports op calls) (hs : s.WellFormed) (hrule : s.rule ≠ .none)
    (hcap : s.capacity = some capacity) (hpolicy : s.policy = .tinyLfu a) (ha : a.Invariant capacity l)
    (hwindow : s.size = capacity → a.window.toList ≠ [])
    (hfull : (Policy.tinyLfu (a.applyAll calls)).residents.length = capacity) :
    (a.applyAll calls).window.toList ≠ [] := by
  obtain ⟨hpos, hsize⟩ := hs.capacity capacity hcap
  have hlength := hs.length_residents hrule
  have hadmits := h.admitsAll hs
  rw [hpolicy] at hlength hadmits
  rw [Policy.residents] at hlength
  cases h with
  | nothing => exact hwindow (hlength.symm.trans hfull)
  | @used k' =>
    have hperm := (ha.wellFormed.use k').2
    have hwindow := hwindow (hlength.symm.trans (hperm.length_eq.symm.trans hfull))
    exact fun hnil => hwindow (List.perm_nil.mp (hnil ▸ (ha.wellFormed.window_use_perm k').symm))
  | @removed k' hk =>
    have hresident := (hs.residents_iff hrule).mpr (mem_keys.mp hk)
    have hless := (ha.wellFormed.erase k').2.length_eq.symm.trans hfull
    rw [hpolicy, Policy.residents] at hresident
    rw [List.length_erase_of_mem hresident, hlength] at hless
    omega
  | cleared =>
    have hnone : (Policy.tinyLfu a).cleared.residents.length = capacity := hfull
    rw [Policy.residents_cleared, List.length_nil] at hnone
    omega
  | inserted hop hk =>
    rw [Policy.admitsAll_append, Admission.tinyLfu_applyAll] at hadmits
    have hroom := ha.applyAll hadmits.1
    rw [Admission.applyAll_append]
    exact hroom.wellFormed.window_add_ne_nil hroom.bounded hadmits.2.1

theorem WellFormed.window_ne_nil_applyAll (hs : s.WellFormed) (hrule : s.rule ≠ .none)
    (hcap : s.capacity = some capacity) (hpolicy : s.policy = .tinyLfu a) (ha : a.Invariant capacity l)
    (hwindow : s.size = capacity → a.window.toList ≠ []) (ops : List Operation) :
    (s.applyAll ops).size = capacity → (a.applyAll (s.calls ops)).window.toList ≠ [] := by
  induction ops generalizing s a l with
  | nil => exact hwindow
  | cons op ops ih =>
    obtain ⟨hsame, hbound⟩ := Prod.mk.inj (bound_apply s op)
    have hreports := s.reports_callsOf op
    have hadmits := hreports.admitsAll hs
    have hpolicy' : (s.apply op).policy = .tinyLfu (a.applyAll (s.callsOf op)) := by
      rw [policy_apply, hpolicy, Admission.tinyLfu_applyAll]
    rw [hpolicy] at hadmits
    rw [calls, Admission.applyAll_append]
    refine ih (hs.apply op) (hsame.symm ▸ hrule) (hbound.trans hcap) hpolicy' (ha.applyAll hadmits) ?_
    rw [← (hs.apply op).length_residents (hsame.symm ▸ hrule), hpolicy']
    exact hreports.window_ne_nil hs hrule hcap hpolicy ha hwindow

/-- A put of a new key into a full store is a contest of the oldest key of the window and the oldest of
main. -/
theorem WellFormed.contest_of_put (hs : s.WellFormed) (hpolicy : s.policy = .tinyLfu a)
     (hb : a.Bounded capacity) (hwindow : a.window.toList ≠ [])
    (hk : k ∉ s.keys) (hfull : s.isFull = true) (hput : s.put draw k v secondary = .ok t) :
    ∃ b oldest, t.policy = .tinyLfu b ∧ a.window.toList.head? = some oldest ∧
      b.window.toList = a.window.toList.tail ++ [k] ∧
      ((∃ resident, a.main.toList.head? = some resident ∧
          a.sketch.estimate resident < a.sketch.estimate oldest ∧
          t.keys.Perm (k :: s.keys.erase resident) ∧ b.main.toList = a.main.toList.tail ++ [oldest]) ∨
        (∀ resident, a.main.toList.head? = some resident →
          a.sketch.estimate oldest ≤ a.sketch.estimate resident) ∧
        t.keys.Perm (k :: s.keys.erase oldest) ∧ b.main.toList = a.main.toList) := by
  rw [mem_keys] at hk
  have hwf := hs.policy
  rw [hpolicy] at hwf
  obtain ⟨victim, rest, hvictim, -⟩ := hs.exists_victim hfull draw
  have hkeys := hs.keys_put_of_victim? hput hk hfull hvictim
  have hfree := hs.not_mem_residents hk
  rw [(hs.policy.victim? hvictim).2.mem_iff, List.mem_cons, not_or] at hfree
  have happly : s.policy.apply (.victim draw) = rest := by
    rw [Policy.apply, hvictim]
    rfl
  rw [hpolicy] at hvictim
  obtain ⟨r, htake, rfl⟩ := Policy.exists_taken hvictim
  obtain ⟨oldest, holdest, hwindow', hmain⟩ :=
    hwf.contest hb hwindow htake fun hmem => hfree.2 (List.mem_append_left _ hmem)
  refine ⟨r.add k, oldest, ?_, holdest, hwindow', ?_⟩
  · rw [policy_put_of_not_mem hput hk, Store.makeRoom, if_pos hfull, policy_evict, happly]
    rfl
  · rcases hmain with ⟨hfirst, hlt, hmain⟩ | ⟨rfl, hmain, hle⟩
    · exact .inl ⟨victim, hfirst, hlt, hkeys, hmain⟩
    · exact .inr ⟨hle, hkeys, hmain⟩

/-- A key of main goes at a put only if it is the oldest there and the oldest of the window has a higher
estimate. -/
theorem WellFormed.lost_contest_of_put (hs : s.WellFormed) (hrule : s.rule ≠ .none)
    (hcap : s.capacity = some capacity) (hpolicy : s.policy = .tinyLfu a) (hb : a.Bounded capacity)
    (hwindow : s.size = capacity → a.window.toList ≠ []) (hput : s.put draw k v secondary = .ok t)
    {resident : Key} (hmain : resident ∈ a.main.toList) (hgone : resident ∉ t.keys) :
    k ∉ s.keys ∧ s.size = capacity ∧ a.main.toList.head? = some resident ∧
      ∃ oldest, a.window.toList.head? = some oldest ∧
        a.sketch.estimate resident < a.sketch.estimate oldest := by
  have hkept : resident ∈ s.keys := by
    rw [mem_keys, ← hs.residents_iff hrule, hpolicy]
    exact List.mem_append_right _ hmain
  have hstay (hroom : k ∈ s.entries ∨ s.isFull = false) : False :=
    hgone (keys_subset_keys_put hput hroom hkept)
  have hk : k ∉ s.keys := fun hmem => hstay (.inl (mem_keys.mp hmem))
  have hfull : s.isFull = true := by
    rw [← Bool.not_eq_false]
    exact fun hroom => hstay (.inr hroom)
  have hsize := (hs.isFull_iff_size_eq hcap).mp hfull
  have hother {victim : Key} (hkeys : t.keys.Perm (k :: s.keys.erase victim)) : resident = victim := by
    by_contra hne
    refine hgone (hkeys.mem_iff.mpr (List.mem_cons_of_mem k ?_))
    exact (List.mem_erase_of_ne hne).mpr hkept
  obtain ⟨b, oldest, -, holdest, -, ⟨first, hfirst, hlt, hkeys, -⟩ | ⟨-, hkeys, -⟩⟩ :=
    hs.contest_of_put hpolicy hb (hwindow hsize) hk hfull hput
  · obtain rfl := hother hkeys
    exact ⟨hk, hsize, hfirst, oldest, holdest, hlt⟩
  · -- The key that goes is in the window, so it is none of main.
    obtain rfl := hother hkeys
    have hwf := hs.policy
    rw [hpolicy] at hwf
    exact absurd hmain (hwf.not_mem_main (List.mem_of_mem_head? holdest))

/-- The bookkeeping of a store by the rule TINYLFU that a run has reached. -/
theorem exists_admission_of_run (hash : RowHash) (hcapacity : 1 ≤ capacity) (ops : List Operation) :
    let s₀ := fresh hash .tinyLfu capacity
    ∃ a, (s₀.applyAll ops).policy = .tinyLfu a ∧
      a.Invariant capacity ((Admission.ofCapacity hash capacity).touches (s₀.calls ops)) ∧
      ((s₀.applyAll ops).size = capacity → a.window.toList ≠ []) := by
  intro s₀
  have hs₀ : s₀.WellFormed := wellFormed_fresh hash (.inr hcapacity)
  have hstart := Admission.invariant_ofCapacity hash capacity
  have hempty : s₀.size = capacity → (Admission.ofCapacity hash capacity).window.toList ≠ [] := by
    intro hsize
    have hzero : s₀.size = 0 := by simp [s₀, fresh, size]
    omega
  have hrule : s₀.rule ≠ .none := by simp [s₀, fresh]
  refine ⟨_, ?_, hstart.applyAll (hs₀.admitsAll_calls ops),
    hs₀.window_ne_nil_applyAll hrule rfl rfl hstart hempty ops⟩
  rw [policy_applyAll, ← Admission.tinyLfu_applyAll]
  rfl

/-- After every run by the rule TINYLFU, whatever the hash, no key is both in the window and in main, these two
hold the keys of the store, the window holds no more than a hundredth of the capacity, or one key, and each of
them is in the order of the latest touches. A full store has keys in its window. So a put of a new key there
is a contest of two keys: the oldest of main goes and the oldest of the window becomes the newest of main, if
main has keys and the sketch gives the second a higher estimate than the first, and else the oldest of the
window goes and main stays as it is. A put never makes a key of main go in any other way. -/
theorem contest_of_run (hash : RowHash) {capacity : Nat} (hcapacity : 1 ≤ capacity)
    (ops : List Operation) :
    ∃ s₀ a, create hash .tinyLfu capacity = .ok s₀ ∧
      let s := s₀.applyAll ops
      let touches := (Admission.ofCapacity hash capacity).touches (s₀.calls ops)
      let estimate := a.sketch.estimate
      s.policy = .tinyLfu a ∧ (a.window.toList ++ a.main.toList).Nodup ∧
      (a.window.toList ++ a.main.toList).Perm s.keys ∧ a.window.size ≤ max 1 (capacity / 100) ∧
      a.window.toList.Pairwise (Precedes touches) ∧ a.main.toList.Pairwise (Precedes touches) ∧
      (s.size = capacity → a.window.toList ≠ []) ∧
      (∀ draw k v secondary, k ∉ s.keys → s.size = capacity → secondary.length ≤ maxSecondaryIndexes →
        ∃ t b oldest, s.put draw k v secondary = .ok t ∧ t.policy = .tinyLfu b ∧
          a.window.toList.head? = some oldest ∧ b.window.toList = a.window.toList.tail ++ [k] ∧
          ((∃ resident, a.main.toList.head? = some resident ∧ estimate resident < estimate oldest ∧
              t.keys.Perm (k :: s.keys.erase resident) ∧
              b.main.toList = a.main.toList.tail ++ [oldest]) ∨
            (∀ resident, a.main.toList.head? = some resident → estimate oldest ≤ estimate resident) ∧
              t.keys.Perm (k :: s.keys.erase oldest) ∧ b.main.toList = a.main.toList)) ∧
      ∀ draw k v secondary t, s.put draw k v secondary = .ok t →
        ∀ resident ∈ a.main.toList, resident ∉ t.keys →
          k ∉ s.keys ∧ s.size = capacity ∧ a.main.toList.head? = some resident ∧
            ∃ oldest, a.window.toList.head? = some oldest ∧ estimate resident < estimate oldest := by
  obtain ⟨hs, hsame, hcap, -⟩ :=
    reached_applyAll hash (nofun : EvictionRule.tinyLfu ≠ .none) hcapacity ops
  obtain ⟨a, hpolicy, ⟨hwf, hb, hf⟩, hwindow⟩ := exists_admission_of_run hash hcapacity ops
  have hrule : ((fresh hash .tinyLfu capacity).applyAll ops).rule ≠ .none := by
    rw [← hs.rule, hsame]
    nofun
  have hresidents := hs.residents hrule
  rw [hpolicy] at hresidents
  refine ⟨_, a, create_eq_ok_iff.mpr ⟨.inr hcapacity, rfl⟩, ?_⟩
  intro s touches estimate
  refine ⟨hpolicy, hwf.nodup, hresidents, hb.windowCapacity ▸ hb.window, hf.window.pairwise,
    hf.main.pairwise, hwindow, ?_, ?_⟩
  · intro draw k v secondary hk hsize hsecondary
    obtain ⟨t, hput⟩ : ∃ t, s.put draw k v secondary = .ok t := ⟨_, put_eq_ok hsecondary⟩
    have hfull := (hs.isFull_iff_size_eq hcap).mpr hsize
    obtain ⟨b, oldest, hcontest⟩ := hs.contest_of_put hpolicy hb (hwindow hsize) hk hfull hput
    exact ⟨t, b, oldest, hput, hcontest⟩
  · intro draw k v secondary t hput resident hmain hgone
    exact hs.lost_contest_of_put hrule hcap hpolicy hb hwindow hput hmain hgone

theorem contest_of_run_admitted :
    1 ≤ 2 ∧ ∃ s₀ a, create (fun _ k => k.length) .tinyLfu 2 = .ok s₀ ∧
      let s := s₀.applyAll [.put 0 "a" "1" [], .put 0 "bb" "2" [some "x"], .getBy .one "x"]
      s.policy = .tinyLfu a ∧ a.window.toList ≠ [] ∧ "c" ∉ s.keys ∧ s.size = 2 ∧
        [some "y"].length ≤ maxSecondaryIndexes ∧
        ∃ t b, s.put 0 "c" "3" [some "y"] = .ok t ∧ t.policy = .tinyLfu b ∧
          a.window.toList.head? = some "bb" ∧ a.main.toList.head? = some "a" ∧
          a.sketch.estimate "a" < a.sketch.estimate "bb" ∧ t.keys.Perm ("c" :: s.keys.erase "a") ∧
          b.main.toList = a.main.toList.tail ++ ["bb"] := by
  have hcapacity : 1 ≤ 2 := by decide
  obtain ⟨s₀, a, hcreate, hpolicy, -, -, -, -, -, hwindow, hcontest, -⟩ :=
    contest_of_run (fun _ k => k.length) hcapacity
      [.put 0 "a" "1" [], .put 0 "bb" "2" [some "x"], .getBy .one "x"]
  refine ⟨hcapacity, s₀, a, hcreate, ?_⟩
  obtain ⟨-, rfl⟩ := create_eq_ok_iff.mp hcreate
  intro s
  have hkeys : s.keys = ["a", "bb"] := by cbv
  have hsize : s.size = 2 := by cbv
  have hlists : (s.policy.admission?.map fun a =>
      (a.window.oldest?, a.main.oldest?, a.sketch.estimate "a", a.sketch.estimate "bb")) =
      some (some "bb", some "a", 1, 2) := by cbv
  obtain ⟨r, hr, heq⟩ := Option.map_eq_some_iff.mp hlists
  obtain rfl : a = r := Policy.tinyLfu.inj (hpolicy.symm.trans (Policy.admission?_eq_some_iff.mp hr))
  simp only [Prod.mk.injEq, Recency.oldest?_eq_head?] at heq
  obtain ⟨holdest, hresident, ha, hb⟩ := heq
  have hk : "c" ∉ s.keys := by simp [hkeys]
  have hsecondary : [some "y"].length ≤ maxSecondaryIndexes := by decide
  have hlt : a.sketch.estimate "a" < a.sketch.estimate "bb" := by omega
  refine ⟨hpolicy, hwindow hsize, hk, hsize, hsecondary, ?_⟩
  obtain ⟨t, b, oldest, hput, ht, hfirst, -, hresult⟩ := hcontest 0 "c" "3" _ hk hsize hsecondary
  obtain rfl : "bb" = oldest := Option.some.inj (holdest.symm.trans hfirst)
  refine ⟨t, b, hput, ht, holdest, hresident, hlt, ?_⟩
  rcases hresult with ⟨resident, hmain, -, hgone⟩ | ⟨hle, -⟩
  · obtain rfl : "a" = resident := Option.some.inj (hresident.symm.trans hmain)
    exact hgone
  · have := hle "a" hresident
    omega

end CacheServer.Store
