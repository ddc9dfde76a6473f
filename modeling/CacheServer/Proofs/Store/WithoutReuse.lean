import CacheServer.Eviction.SipHash
import CacheServer.Proofs.Eviction.Unused
import CacheServer.Proofs.Store.Calls
import CacheServer.Proofs.Store.Untouched
import Mathlib.Tactic.IntervalCases

/-!
Runs in which no key is read or overwritten. The rules that differ in what they make of a use have nothing to
differ in then: each of them gives up the keys in the order in which they came. The rules ARC and 2QUEUE do
so as long as no key comes back that they may still remember.
-/

namespace CacheServer

namespace Store

variable {s t : Store} {k : Key} {op : Operation} {ops ops' : List Operation} {draw : Nat} {v : String}
  {secondary : List (Option Key)} {capacity : Nat}

/-- The keys that are driven out at each step of a run. -/
def evictions : Store → List Operation → List (List Key)
  | _, [] => []
  | s, op :: ops => s.drivenOut op :: (s.apply op).evictions ops

/-- No key that is there is read or overwritten in the run: the only uses are those that bring a key. -/
def WithoutReuse (s : Store) (ops : List Operation) : Prop :=
  ∀ u ∈ s.uses ops, u.kind = .insertion

/-- No key is put in the run that has been driven out in it before. A key that has been removed may be put
again. -/
def NoneReturns (s : Store) (ops : List Operation) : Prop :=
  ∀ (n draw : Nat) (k : Key) (v : String) (secondary : List (Option Key)),
    ops[n]? = some (.put draw k v secondary) → secondary.length ≤ maxSecondaryIndexes →
      k ∉ ((s.evictions ops).take n).flatten

theorem evictions_append (s : Store) (ops ops' : List Operation) :
    s.evictions (ops ++ ops') = s.evictions ops ++ (s.applyAll ops).evictions ops' := by
  induction ops generalizing s with
  | nil => rfl
  | cons op ops ih => rw [List.cons_append, evictions, evictions, ih, applyAll_cons, List.cons_append]

theorem length_evictions (s : Store) (ops : List Operation) : (s.evictions ops).length = ops.length := by
  induction ops generalizing s with
  | nil => rfl
  | cons op ops ih => rw [evictions, List.length_cons, ih, List.length_cons]

theorem WithoutReuse.of_append (h : s.WithoutReuse (ops ++ ops')) : s.WithoutReuse ops := by
  intro u hu
  refine h u ?_
  rw [uses_append]
  exact List.mem_append_left _ hu

theorem WithoutReuse.kind_of_snoc (h : s.WithoutReuse (ops ++ [op])) {u : Use}
    (hu : (s.applyAll ops).use? op = some u) : u.kind = .insertion := by
  refine h u ?_
  rw [uses_append]
  exact List.mem_append_right _ (by simp [uses, hu])

theorem NoneReturns.of_append (h : s.NoneReturns (ops ++ ops')) : s.NoneReturns ops := by
  intro n draw k v secondary hop hsecondary
  have hlt : n < ops.length := (List.getElem?_eq_some_iff.mp hop).1
  have hnew := h n draw k v secondary (by rw [List.getElem?_append_left hlt, hop]) hsecondary
  rwa [evictions_append, List.take_append_of_le_length (by rw [length_evictions]; omega)] at hnew

/-- A key that is put last has not been driven out in the run. -/
theorem NoneReturns.not_mem_of_snoc (h : s.NoneReturns (ops ++ [.put draw k v secondary]))
    (hsecondary : secondary.length ≤ maxSecondaryIndexes) : k ∉ (s.evictions ops).flatten := by
  have hnew := h ops.length draw k v secondary List.getElem?_concat_length hsecondary
  rwa [evictions_append, List.take_left' (length_evictions s ops)] at hnew

theorem WellFormed.not_mem_ghosts_makeRoom (hs : s.WellFormed) (hb : s.policy.Bounded capacity)
    (hk : k ∉ s.entries) (hghost : k ∉ s.policy.ghosts) (draw : Nat) :
    k ∉ (s.makeRoom draw).policy.ghosts := by
  rcases hs.policy_makeRoom_cases hk draw with ⟨-, hroom⟩ | ⟨-, victim, hne, hvictim⟩
  · rwa [hroom]
  · intro hmem
    rcases List.mem_cons.mp (hb.ghosts_subset_of_victim? hs.policy hvictim hmem) with heq | hbefore
    · exact hne heq
    · exact hghost hbefore

/-- A key that comes to be remembered with a put of a new key is driven out by it. -/
theorem WellFormed.ghosts_put_subset (hs : s.WellFormed) (hb : s.policy.Bounded capacity)
    (hput : s.put draw k v secondary = .ok t) (hk : k ∉ s.entries) :
    t.policy.ghosts ⊆ s.policy.ghosts ++ s.keys.filter fun k' => !t.containsKey k' := by
  intro ghost hghost
  rw [policy_put_of_not_mem hput hk] at hghost
  have hroom := (hs.makeRoom draw).policy.ghosts_inserted_subset k hghost
  rcases hs.policy_makeRoom_cases hk draw with ⟨-, hsame⟩ | ⟨hfull, victim, hne, hvictim⟩
  · rw [hsame] at hroom
    exact List.mem_append_left _ hroom
  · have hkeys := hs.keys_put_of_victim? hput hk hfull hvictim
    obtain ⟨victim', rest, hvictim', hmem⟩ := hs.exists_victim hfull draw
    obtain ⟨rfl, rfl⟩ := Prod.mk.inj (Option.some.inj (hvictim.symm.trans hvictim'))
    have hgone : t.containsKey victim = false := by
      rw [Bool.eq_false_iff, Ne, containsKey_iff, ← mem_keys, hkeys.mem_iff, List.mem_cons, not_or]
      exact ⟨hne.symm, s.nodup_keys.not_mem_erase⟩
    rcases List.mem_cons.mp (hb.ghosts_subset_of_victim? hs.policy hvictim hroom) with rfl | hbefore
    · refine List.mem_append_right _ (List.mem_filter.mpr ⟨mem_keys.mpr hmem, ?_⟩)
      rw [hgone, Bool.not_false]
    · exact List.mem_append_left _ hbefore

theorem ghosts_get (s : Store) (k : Key) : (s.get k).2.policy.ghosts = s.policy.ghosts := by
  rw [get]
  split
  · rfl
  · exact Policy.ghosts_used k s.policy

/-- Only a key that is driven out comes to be remembered. -/
theorem WellFormed.ghosts_apply_subset (hs : s.WellFormed) (hb : s.policy.Bounded capacity) (op : Operation) :
    (s.apply op).policy.ghosts ⊆ s.policy.ghosts ++ s.drivenOut op := by
  cases op with
  | put draw k v secondary =>
    rw [drivenOut, Store.apply]
    by_cases hsecondary : secondary.length ≤ maxSecondaryIndexes
    · rw [put_eq_ok hsecondary]
      by_cases hk : k ∈ s.entries
      · obtain ⟨e, he⟩ := mem_entries_iff.mp hk
        refine List.subset_append_of_subset_left _ ?_
        simp [write_of_getElem? he, Policy.ghosts_used]
      · exact hs.ghosts_put_subset hb (put_eq_ok hsecondary) hk
    · rw [put_of_too_many (by omega)]
      exact List.subset_append_left _ _
  | get k =>
    rw [Store.apply, ghosts_get]
    exact List.subset_append_left _ _
  | getBy i x =>
    rw [Store.apply, Store.getBy]
    split
    · exact List.subset_append_left _ _
    · rw [ghosts_get]
      exact List.subset_append_left _ _
  | remove k =>
    refine List.subset_append_of_subset_left _ ?_
    rw [Store.apply, Store.remove]
    split
    · exact List.Subset.refl _
    · exact hs.policy.ghosts_removed_subset k
  | clear =>
    rw [Store.apply, Store.clear, Policy.ghosts_cleared]
    exact List.nil_subset _

theorem ghosts_applyAll_subset (hash : RowHash) {rule : EvictionRule} (hrule : rule ≠ .none)
    (hcapacity : 1 ≤ capacity) (ops : List Operation) :
    ((fresh hash rule capacity).applyAll ops).policy.ghosts ⊆
      ((fresh hash rule capacity).evictions ops).flatten := by
  induction ops using List.reverseRecOn with
  | nil =>
    have hnone : (fresh hash rule capacity).policy.ghosts = [] := by
      cases rule <;> simp [fresh, Policy.ofRule, Policy.ghosts, Adaptive.ofCapacity, TwoQueues.ofCapacity]
    rw [applyAll_nil, hnone]
    exact List.nil_subset _
  | append_singleton ops op ih =>
    obtain ⟨hs, -, -, hb⟩ := reached_applyAll hash hrule hcapacity ops
    intro ghost hghost
    rw [applyAll_append] at hghost
    rw [evictions_append, List.flatten_append, List.mem_append]
    rcases List.mem_append.mp (hs.ghosts_apply_subset hb op hghost) with hbefore | hdriven
    · exact .inl (ih hbefore)
    · exact .inr (by simpa [evictions] using hdriven)

/-- A key that has not been driven out in the run is not remembered after it, and by most rules no key is. -/
theorem not_mem_ghosts_applyAll (hash : RowHash) {rule : EvictionRule} (hrule : rule ≠ .none)
    (hcapacity : 1 ≤ capacity)
    (hnew : rule ∈ [.arc, .twoQueues] → k ∉ ((fresh hash rule capacity).evictions ops).flatten) :
    k ∉ ((fresh hash rule capacity).applyAll ops).policy.ghosts := by
  by_cases hremembers : rule ∈ [.arc, .twoQueues]
  · exact fun hghost => hnew hremembers (ghosts_applyAll_subset hash hrule hcapacity ops hghost)
  · obtain ⟨-, hsame, -⟩ := reached_applyAll hash hrule hcapacity ops
    rw [Policy.ghosts_eq_nil (by rwa [hsame])]
    exact List.not_mem_nil

/-- Stores with the same entries and index entries, and with bookkeepings in step. -/
def InStep (s t : Store) : Prop :=
  ∃ rule p, s.policy.InStep p ∧ t = { s with rule := rule, policy := p }

namespace InStep

theorem entries_eq (h : s.InStep t) : t.entries = s.entries := by
  obtain ⟨rule, p, -, rfl⟩ := h
  rfl

theorem index_eq (h : s.InStep t) (i : Index) : t.index i = s.index i := by
  obtain ⟨rule, p, -, rfl⟩ := h
  cases i <;> rfl

theorem keys_eq (h : s.InStep t) : t.keys = s.keys :=
  congrArg Std.ExtTreeMap.keys h.entries_eq

theorem makeRoom (h : s.InStep t) (hs : s.WellFormed) (ht : t.WellFormed) (draw : Nat) :
    (s.makeRoom draw).InStep (t.makeRoom draw) := by
  obtain ⟨rule, p, hp, rfl⟩ := h
  unfold Store.makeRoom
  cases hfull : s.isFull with
  | false =>
    rw [if_neg (by simp), if_neg (by simpa [isFull] using hfull)]
    exact ⟨rule, p, hp, rfl⟩
  | true =>
    rw [if_pos rfl, if_pos (by simpa [isFull] using hfull)]
    obtain ⟨victim, rest, hvictim, -⟩ := hs.exists_victim hfull draw
    obtain ⟨rest', hvictim', hrest⟩ := hp.victim? hs.policy ht.policy hvictim
    rw [evict_eq hvictim, evict_eq hvictim']
    exact ⟨rule, rest', hrest, rfl⟩

/-- A key comes that neither of the rules remembers. -/
theorem write (h : s.InStep t) (hs : s.WellFormed) (ht : t.WellFormed) (hk : k ∉ s.entries)
    (hghost : k ∉ (s.makeRoom draw).policy.ghosts) (hghost' : k ∉ (t.makeRoom draw).policy.ghosts) :
    (s.write draw k v).InStep (t.write draw k v) := by
  have hs' := hs.makeRoom draw
  have ht' := ht.makeRoom draw
  rw [write_eq_makeRoom hk, write_eq_makeRoom (h.entries_eq ▸ hk)]
  obtain ⟨rule, p, hp, hroom⟩ := h.makeRoom hs ht draw
  rw [hroom] at ht' hghost' ⊢
  have hresident := hs'.not_mem_residents (not_mem_makeRoom hk draw)
  exact ⟨rule, p.inserted k, hp.inserted hs'.policy ht'.policy hresident hghost hghost', rfl⟩

theorem remove (h : s.InStep t) (hs : s.WellFormed) (ht : t.WellFormed) (k : Key) :
    (s.remove k).2.InStep (t.remove k).2 := by
  obtain ⟨rule, p, hp, rfl⟩ := h
  unfold Store.remove
  dsimp only
  split
  · exact ⟨rule, p, hp, rfl⟩
  · exact ⟨rule, p.removed k, hp.removed hs.policy ht.policy k, rfl⟩

theorem clear (h : s.InStep t) : s.clear.InStep t.clear := by
  obtain ⟨rule, p, hp, rfl⟩ := h
  exact ⟨rule, p.cleared, hp.cleared, rfl⟩

theorem get_fst (h : s.InStep t) (k : Key) : (t.get k).1 = (s.get k).1 := by
  rw [Store.get_fst, Store.get_fst, h.entries_eq]

theorem getBy_fst (h : s.InStep t) (i : Index) (x : Key) : (t.getBy i x).1 = (s.getBy i x).1 := by
  rw [Store.getBy, Store.getBy, h.index_eq]
  split
  · rfl
  · exact h.get_fst _

/-- Every operation that is no reuse keeps the stores in step, unless it puts a key that is remembered. -/
theorem apply (h : s.InStep t) (hs : s.WellFormed) (ht : t.WellFormed) (hb : s.policy.Bounded capacity)
    (hb' : t.policy.Bounded capacity) (hreuse : ∀ u, s.use? op = some u → u.kind = .insertion)
    (hnew : ∀ draw k v secondary, op = .put draw k v secondary → secondary.length ≤ maxSecondaryIndexes →
      k ∉ s.policy.ghosts ∧ k ∉ t.policy.ghosts) :
    (s.apply op).InStep (t.apply op) := by
  cases op with
  | put draw k v secondary =>
    rw [Store.apply, Store.apply]
    by_cases hsecondary : secondary.length ≤ maxSecondaryIndexes
    · have hk : k ∉ s.entries := by
        intro hmem
        have huse : s.use? (.put draw k v secondary) = some ⟨k, .overwriting⟩ := by
          rw [use?, if_pos hsecondary, if_pos (containsKey_iff.mpr hmem)]
        cases hreuse _ huse
      obtain ⟨hghost, hghost'⟩ := hnew draw k v secondary rfl hsecondary
      obtain ⟨rule, p, hp, hwrite⟩ := h.write (v := v) hs ht hk
        (hs.not_mem_ghosts_makeRoom hb hk hghost draw)
        (ht.not_mem_ghosts_makeRoom hb' (h.entries_eq ▸ hk) hghost' draw)
      rw [put_eq_ok hsecondary, put_eq_ok hsecondary, hwrite]
      exact ⟨rule, p, hp, rfl⟩
    · rw [put_of_too_many (by omega), put_of_too_many (by omega)]
      exact h
  | get k =>
    have hnone : (s.get k).1 = none := by
      rw [Option.eq_none_iff_forall_ne_some]
      intro v hfound
      cases hreuse ⟨k, .reading⟩ (by simp [use?, hfound])
    rw [Store.apply, Store.apply, snd_get_of_none hnone, snd_get_of_none ((h.get_fst k).trans hnone)]
    exact h
  | getBy i x =>
    have hnone : (s.getBy i x).1 = none := by
      rw [Option.eq_none_iff_forall_ne_some]
      intro v hfound
      obtain ⟨k, hx, -⟩ := exists_link_of_getBy_fst hfound
      cases hreuse ⟨k, .reading⟩ (by simp [use?, hfound, hx])
    rw [Store.apply, Store.apply, snd_getBy_of_none hnone, snd_getBy_of_none ((h.getBy_fst i x).trans hnone)]
    exact h
  | remove k => exact h.remove hs ht k
  | clear => exact h.clear

/-- The same keys are driven out by an operation that keeps the stores in step. -/
theorem drivenOut_eq (h : s.InStep t) (hnext : (s.apply op).InStep (t.apply op)) :
    t.drivenOut op = s.drivenOut op := by
  cases op with
  | put draw k v secondary => simp only [drivenOut, containsKey, h.keys_eq, hnext.entries_eq]
  | _ => rfl

end InStep

theorem ne_none_of_mem {rule : EvictionRule} (hrule : rule ∈ [.fifo, .lru, .lfu, .clock, .arc, .twoQueues]) :
    rule ≠ .none := by
  rintro rfl
  simp at hrule

theorem inStep_fresh (hash : RowHash) {rule rule' : EvictionRule} (capacity : Nat)
    (hrule : rule ∈ [.fifo, .lru, .lfu, .clock, .arc, .twoQueues])
    (hrule' : rule' ∈ [.fifo, .lru, .lfu, .clock, .arc, .twoQueues]) :
    (fresh hash rule capacity).InStep (fresh hash rule' capacity) := by
  refine ⟨rule', .ofRule hash capacity rule', ⟨?_, ?_, ?_⟩, ?_⟩
  · exact Policy.unused_ofRule hash capacity hrule
  · exact Policy.unused_ofRule hash capacity hrule'
  · rw [fresh, Policy.residents_ofRule, Policy.residents_ofRule]
  · simp [fresh, ne_none_of_mem hrule, ne_none_of_mem hrule']

/-- A run without reuse keeps the stores in step and drives out the same keys, from the first step to the last. -/
theorem inStep_applyAll (hash : RowHash) {rule rule' : EvictionRule} (hcapacity : 1 ≤ capacity)
    (hrule : rule ∈ [.fifo, .lru, .lfu, .clock, .arc, .twoQueues])
    (hrule' : rule' ∈ [.fifo, .lru, .lfu, .clock, .arc, .twoQueues])
    (hreuse : (fresh hash rule capacity).WithoutReuse ops)
    (hreturns : rule ∈ [.arc, .twoQueues] ∨ rule' ∈ [.arc, .twoQueues] →
      (fresh hash rule capacity).NoneReturns ops) :
    ((fresh hash rule capacity).applyAll ops).InStep ((fresh hash rule' capacity).applyAll ops) ∧
      (fresh hash rule' capacity).evictions ops = (fresh hash rule capacity).evictions ops := by
  have hne : rule ≠ .none := ne_none_of_mem hrule
  have hne' : rule' ≠ .none := ne_none_of_mem hrule'
  -- From the end: whether the last key put is remembered depends on the keys driven out before.
  induction ops using List.reverseRecOn with
  | nil => exact ⟨inStep_fresh hash capacity hrule hrule', rfl⟩
  | append_singleton ops op ih =>
    obtain ⟨hstep, hevictions⟩ := ih hreuse.of_append fun hremembers => (hreturns hremembers).of_append
    obtain ⟨hs, -, -, hb⟩ := reached_applyAll hash hne hcapacity ops
    obtain ⟨ht, -, -, hb'⟩ := reached_applyAll hash hne' hcapacity ops
    have hnew : ∀ draw k v secondary, op = .put draw k v secondary → secondary.length ≤ maxSecondaryIndexes →
        k ∉ ((fresh hash rule capacity).applyAll ops).policy.ghosts ∧
          k ∉ ((fresh hash rule' capacity).applyAll ops).policy.ghosts := by
      rintro draw k v secondary rfl hsecondary
      have hfirst (hremembers : rule ∈ [.arc, .twoQueues] ∨ rule' ∈ [.arc, .twoQueues]) :
          k ∉ ((fresh hash rule capacity).evictions ops).flatten :=
        (hreturns hremembers).not_mem_of_snoc hsecondary
      constructor
      · exact not_mem_ghosts_applyAll hash hne hcapacity fun hremembers => hfirst (.inl hremembers)
      · refine not_mem_ghosts_applyAll hash hne' hcapacity fun hremembers => ?_
        rw [hevictions]
        exact hfirst (.inr hremembers)
    have hnext := hstep.apply hs ht hb hb' (fun u hu => hreuse.kind_of_snoc hu) hnew
    rw [applyAll_append, applyAll_append, evictions_append, evictions_append, hevictions, evictions, evictions,
      hstep.drivenOut_eq hnext]
    exact ⟨hnext, rfl⟩

/-- As long as no key is read or overwritten, it makes no difference to a store of at least one key which of the
rules FIFO, LRU, LFU and CLOCK it has: at every step the same keys are driven out, and after every step the store
holds the same keys, with the same values and index entries. The rules ARC and 2QUEUE make no difference either
if, besides, no key is put again that has been driven out. -/
theorem rules_agree_without_reuse (hash : RowHash) {rule rule' : EvictionRule} {capacity : Nat}
    (hcapacity : 1 ≤ capacity) (hrule : rule ∈ [.fifo, .lru, .lfu, .clock, .arc, .twoQueues])
    (hrule' : rule' ∈ [.fifo, .lru, .lfu, .clock, .arc, .twoQueues]) (ops : List Operation) :
    ∃ s₀ t₀, create hash rule capacity = .ok s₀ ∧ create hash rule' capacity = .ok t₀ ∧
      (s₀.WithoutReuse ops →
        (rule ∈ [.arc, .twoQueues] ∨ rule' ∈ [.arc, .twoQueues] → s₀.NoneReturns ops) →
        s₀.evictions ops = t₀.evictions ops ∧
          ∀ n, let s := s₀.applyAll (ops.take n)
            let t := t₀.applyAll (ops.take n)
            s.keys = t.keys ∧ s.entries = t.entries ∧ ∀ i, s.index i = t.index i) := by
  refine ⟨_, _, create_eq_ok_iff.mpr ⟨.inr hcapacity, rfl⟩, create_eq_ok_iff.mpr ⟨.inr hcapacity, rfl⟩, ?_⟩
  intro hreuse hreturns
  refine ⟨(inStep_applyAll hash hcapacity hrule hrule' hreuse hreturns).2.symm, ?_⟩
  intro n s t
  rw [← List.take_append_drop n ops] at hreuse hreturns
  have hstep : s.InStep t := (inStep_applyAll hash hcapacity hrule hrule' hreuse.of_append
    fun hremembers => (hreturns hremembers).of_append).1
  exact ⟨hstep.keys_eq.symm, hstep.entries_eq.symm, fun i => (hstep.index_eq i).symm⟩

theorem rules_agree_without_reuse_arc :
    let ops : List Operation := [.put 0 "a" "1" [some "x"], .put 0 "b" "2" [], .getBy .two "x", .put 0 "c" "3" [],
      .get "a", .remove "b", .put 0 "b" "4" [none, some "x"], .put 0 "d" "5" [], .clear, .put 0 "b" "6" []]
    (1 ≤ 2 ∧ EvictionRule.clock ∈ [.fifo, .lru, .lfu, .clock, .arc, .twoQueues] ∧
      EvictionRule.arc ∈ [.fifo, .lru, .lfu, .clock, .arc, .twoQueues]) ∧
      ∃ s₀ t₀, create SipHash.rowHash .clock 2 = .ok s₀ ∧ create SipHash.rowHash .arc 2 = .ok t₀ ∧
        s₀.WithoutReuse ops ∧ s₀.NoneReturns ops ∧
          t₀.evictions ops = [[], [], [], ["a"], [], [], [], ["c"], [], []] ∧
          ∀ n, (s₀.applyAll (ops.take n)).keys = (t₀.applyAll (ops.take n)).keys := by
  intro ops
  have hcapacity : 1 ≤ 2 := by decide
  have hclock : EvictionRule.clock ∈ [.fifo, .lru, .lfu, .clock, .arc, .twoQueues] := by decide
  have harc : EvictionRule.arc ∈ [.fifo, .lru, .lfu, .clock, .arc, .twoQueues] := by decide
  obtain ⟨s₀, t₀, hclock₀, harc₀, hagree⟩ :=
    rules_agree_without_reuse SipHash.rowHash hcapacity hclock harc ops
  refine ⟨⟨hcapacity, hclock, harc⟩, s₀, t₀, hclock₀, harc₀, ?_⟩
  obtain ⟨huses, hevictions⟩ : s₀.uses ops = [⟨"a", .insertion⟩, ⟨"b", .insertion⟩, ⟨"c", .insertion⟩,
        ⟨"b", .insertion⟩, ⟨"d", .insertion⟩, ⟨"b", .insertion⟩] ∧
      s₀.evictions ops = [[], [], [], ["a"], [], [], [], ["c"], [], []] := by
    obtain ⟨-, rfl⟩ := create_eq_ok_iff.mp hclock₀
    subst ops
    constructor <;> cbv
  have hreuse : s₀.WithoutReuse ops := by
    rw [WithoutReuse, huses]
    decide
  have hreturns : s₀.NoneReturns ops := by
    intro n draw k v secondary hop _
    have hlt : n < 10 := (List.getElem?_eq_some_iff.mp hop).1
    rw [hevictions]
    interval_cases n <;> cases hop <;> decide
  obtain ⟨hsame, hkeys⟩ := hagree hreuse fun _ => hreturns
  exact ⟨hreuse, hreturns, hsame.symm.trans hevictions, fun n => (hkeys n).1⟩

end Store

end CacheServer
