import CacheServer.Proofs.Store.Capacity
import CacheServer.Proofs.Store.CrossReference
import CacheServer.Proofs.Store.History

/-!
A store answers by its history: a key has the value of its latest put unless it has ended since, and a
secondary key leads to the key of the latest put that supplied it unless that key has ended since.
-/

namespace CacheServer

open History

namespace Store

open Std

variable {s t : Store} {h : List Event} {k : Key} {draw : Nat} {v : String}
  {secondary : List (Option Key)}

/-- What an operation does to the contents of a store. A put counts if it has no more than one secondary
key for each index, and the keys that it drives out end before it. -/
def events (s : Store) (op : Operation) : List Event :=
  match op with
  | .put _ k v secondary =>
    if secondary.length ≤ maxSecondaryIndexes then
      (s.drivenOut op).map .drop ++ [.put k v secondary]
    else []
  | .get _ => []
  | .getBy _ _ => []
  | .remove k => [.drop k]
  | .clear => [.clear]

/-- What a run of operations does to the contents of a store. -/
def history (s : Store) : List Operation → List Event
  | [] => []
  | op :: ops => s.events op ++ (s.apply op).history ops

/-- The contents of the store are what the history says. -/
structure Records (s : Store) (h : List Event) : Prop where
  value : ∀ (k : Key) (v : String),
    s.entries[k]?.map Entry.value = some v ↔ Live h k ∧ LatestValue h k v
  link : ∀ (i : Index) (x k : Key), (s.index i)[x]? = some k ↔ Linked h i x k

theorem records_fresh (hash : RowHash) (rule : EvictionRule) (capacity : Nat) :
    (fresh hash rule capacity).Records [] where
  value k v := by
    have hlive : ¬ Live [] k := not_since_nil
    simp [fresh, hlive]
  link i x k := by
    have hlinked : ¬ Linked [] i x k := not_since_nil
    cases i <;> simp [fresh, index, hlinked]

theorem Records.congr (hs : s.Records h)
    (hvalue : ∀ k : Key, t.entries[k]?.map Entry.value = s.entries[k]?.map Entry.value)
    (hindex : ∀ i, t.index i = s.index i) : t.Records h where
  value k v := by rw [hvalue, hs.value]
  link i x k := by rw [hindex, hs.link]

theorem Records.drop (hs : s.Records h) (ht : s.Drops k t) : t.Records (h ++ [.drop k]) where
  value k' v' := by
    rw [live_drop, latestValue_drop, and_assoc, ← hs.value]
    by_cases hk : k = k'
    · subst k'
      simp [ExtTreeMap.getElem?_eq_none ht.not_mem]
    · simp [ht.entry k' (Ne.symm hk), hk]
  link i x target := by
    rw [linked_drop, ← hs.link]
    by_cases hk : k = target
    · subst target
      simp [ht.not_linked i x]
    · simp [ht.link i x target (Ne.symm hk), hk]

theorem records_clear (s : Store) (h : List Event) : s.clear.Records (h ++ [.clear]) where
  value k v := by simp [clear, not_live_clear]
  link i x k := by cases i <;> simp [clear, index, not_linked_clear]

/-- A write that needs no room to be made changes one entry and no index. -/
theorem exists_write_eq (hroom : k ∈ s.entries ∨ s.isFull = false) (draw : Nat) (v : String) :
    ∃ e p, e.value = v ∧
      s.write draw k v = { s with entries := s.entries.insert k e, policy := p } := by
  by_cases hk : k ∈ s.entries
  · obtain ⟨e, he⟩ := mem_entries_iff.mp hk
    exact ⟨_, _, rfl, write_of_getElem? he⟩
  · exact ⟨_, _, rfl, write_of_not_mem hk (hroom.resolve_left hk)⟩

theorem getElem?_index_put (hput : s.put draw k v secondary = .ok t)
    (hroom : k ∈ s.entries ∨ s.isFull = false) (i : Index) (x : Key) :
    (t.index i)[x]? = if i.among secondary = some x then some k else (s.index i)[x]? := by
  obtain ⟨-, rfl⟩ := put_eq_ok_iff.mp hput
  obtain ⟨e, p, -, hwrite⟩ := exists_write_eq hroom draw v
  cases i with
  | one =>
    simp only [index, hwrite, index_link_eq]
    rfl
  | two =>
    simp only [index, hwrite, index_link_eq]
    rfl

theorem value_put (hput : s.put draw k v secondary = .ok t)
    (hroom : k ∈ s.entries ∨ s.isFull = false) (k' : Key) :
    t.entries[k']?.map Entry.value = if k = k' then some v else s.entries[k']?.map Entry.value := by
  obtain ⟨-, rfl⟩ := put_eq_ok_iff.mp hput
  obtain ⟨e, p, hvalue, hwrite⟩ := exists_write_eq hroom draw v
  simp only [hwrite, ExtTreeMap.getElem?_insert, LawfulEqCmp.compare_eq_iff_eq]
  by_cases hk : k = k'
  · simp [hk, hvalue]
  · simp [hk]

theorem Records.put (hs : s.Records h) (hput : s.put draw k v secondary = .ok t)
    (hroom : k ∈ s.entries ∨ s.isFull = false) : t.Records (h ++ [.put k v secondary]) where
  value k' v' := by
    rw [value_put hput hroom, live_put, latestValue_put]
    by_cases hk : k = k'
    · simp [hk]
    · simp [hk, hs.value]
  link i x target := by
    rw [getElem?_index_put hput hroom, linked_put]
    by_cases hx : i.among secondary = some x
    · simp [hx]
    · simp [hx, hs.link]

/-- The list of the elements that one element alone satisfies. -/
private theorem filter_eq_singleton {α : Type} {p : α → Bool} {a : α} {l : List α} (hl : l.Nodup)
    (ha : a ∈ l) (hp : ∀ b ∈ l, p b = true ↔ b = a) : l.filter p = [a] := by
  have hperm : (l.filter p).Perm [a] := by
    rw [List.perm_ext_iff_of_nodup (hl.filter p) (List.nodup_singleton a)]
    intro b
    rw [List.mem_filter, List.mem_singleton]
    constructor
    · rintro ⟨hb, hpb⟩
      exact (hp b hb).mp hpb
    · rintro rfl
      exact ⟨ha, (hp b ha).mpr rfl⟩
  exact List.perm_singleton.mp hperm

theorem drivenOut_put (hput : s.put draw k v secondary = .ok t) :
    s.drivenOut (.put draw k v secondary) = s.keys.filter fun k' => !t.containsKey k' := by
  rw [drivenOut, apply, hput]

theorem drivenOut_put_of_room (hput : s.put draw k v secondary = .ok t)
    (hroom : k ∈ s.entries ∨ s.isFull = false) : s.drivenOut (.put draw k v secondary) = [] := by
  rw [drivenOut_put hput, List.filter_eq_nil_iff]
  intro k' hk'
  simpa using keys_subset_keys_put hput hroom hk'

/-- A put of a new key into a full store drives out the key that goes to make room. -/
theorem WellFormed.drivenOut_put_of_isFull {victim : Key} (hs : s.WellFormed)
    (hput : s.put draw k v secondary = .ok t) (hk : k ∉ s.entries) (hfull : s.isFull = true)
    (hvictim : victim ∈ s.entries) (hdrops : s.Drops victim (s.evict draw)) :
    s.drivenOut (.put draw k v secondary) = [victim] := by
  have hkeys : t.keys.Perm (k :: (s.evict draw).keys) := by
    rw [hs.put_of_isFull hk hfull] at hput
    exact keys_put_of_not_mem hput (not_mem_evict hk) (hs.isFull_evict hfull draw)
  rw [drivenOut_put hput]
  apply filter_eq_singleton (nodup_keys s) (mem_keys.mpr hvictim)
  intro k' hk'
  have hne : k' ≠ k := by
    rintro rfl
    exact hk (mem_keys.mp hk')
  have hmem : k' ∈ t.entries ↔ k' ≠ victim := by
    rw [← mem_keys, hkeys.mem_iff, List.mem_cons, mem_keys, hdrops.mem_iff]
    simp [hne, mem_keys.mp hk']
  rw [Bool.not_eq_true', Bool.eq_false_iff, Ne, containsKey_iff, hmem, not_not]

theorem events_put (hsecondary : secondary.length ≤ maxSecondaryIndexes) :
    s.events (.put draw k v secondary) =
      (s.drivenOut (.put draw k v secondary)).map .drop ++ [.put k v secondary] :=
  if_pos hsecondary

/-- A put ends no key if there is room, and exactly one other key if there is none. -/
theorem WellFormed.events_put_cases (hs : s.WellFormed)
    (hsecondary : secondary.length ≤ maxSecondaryIndexes) (draw : Nat) (k : Key) (v : String) :
    ((k ∈ s.entries ∨ s.isFull = false) ∧
      s.events (.put draw k v secondary) = [.put k v secondary]) ∨
    (k ∉ s.entries ∧ s.isFull = true ∧
      ∃ victim ∈ s.entries, s.Drops victim (s.evict draw) ∧
        s.events (.put draw k v secondary) = [.drop victim, .put k v secondary]) := by
  obtain ⟨t, hput⟩ : ∃ t, s.put draw k v secondary = .ok t := ⟨_, put_eq_ok hsecondary⟩
  rw [events_put hsecondary]
  by_cases hroom : k ∈ s.entries ∨ s.isFull = false
  · rw [drivenOut_put_of_room hput hroom]
    exact .inl ⟨hroom, rfl⟩
  · obtain ⟨hk, hfull⟩ : k ∉ s.entries ∧ s.isFull = true := by simpa using hroom
    obtain ⟨victim, hvictim, hdrops⟩ := hs.exists_drops_evict hfull draw
    rw [hs.drivenOut_put_of_isFull hput hk hfull hvictim hdrops]
    exact .inr ⟨hk, hfull, victim, hvictim, hdrops, rfl⟩

theorem WellFormed.records_put (hs : s.WellFormed) (hrec : s.Records h)
    (hput : s.put draw k v secondary = .ok t) :
    t.Records (h ++ s.events (.put draw k v secondary)) := by
  obtain ⟨hsecondary, -⟩ := put_eq_ok_iff.mp hput
  rcases hs.events_put_cases hsecondary draw k v with
    ⟨hroom, hevents⟩ | ⟨hk, hfull, victim, -, hdrops, hevents⟩
  · rw [hevents]
    exact hrec.put hput hroom
  · rw [hevents, List.append_cons]
    rw [hs.put_of_isFull hk hfull] at hput
    exact (hrec.drop hdrops).put hput (.inr (hs.isFull_evict hfull draw))

/-- A look-up changes no value. -/
theorem value_get (s : Store) (k k' : Key) :
    (s.get k).2.entries[k']?.map Entry.value = s.entries[k']?.map Entry.value := by
  rw [Store.get]
  split
  case h_1 => rfl
  case h_2 e he =>
    simp only [ExtTreeMap.getElem?_insert, LawfulEqCmp.compare_eq_iff_eq]
    by_cases hk : k = k'
    · subst k'
      simp [he]
    · simp [hk]

theorem index_get (s : Store) (k : Key) (i : Index) : (s.get k).2.index i = s.index i := by
  rw [Store.get]
  split
  · rfl
  · cases i <;> rfl

theorem Records.get (hrec : s.Records h) (k : Key) : (s.get k).2.Records h :=
  hrec.congr (value_get s k) (index_get s k)

theorem Records.getBy (hrec : s.Records h) (i : Index) (x : Key) : (s.getBy i x).2.Records h := by
  rw [Store.getBy]
  split
  · exact hrec
  · exact hrec.get _

/-- What is said of the contents stays true as an operation adds its events. -/
theorem WellFormed.records_apply (hs : s.WellFormed) (hrec : s.Records h) (op : Operation) :
    (s.apply op).Records (h ++ s.events op) := by
  cases op with
  | put draw k v secondary =>
    by_cases hsecondary : secondary.length ≤ maxSecondaryIndexes
    · rw [Store.apply, put_eq_ok hsecondary]
      exact hs.records_put hrec (put_eq_ok hsecondary)
    · rw [Store.apply, events, Store.put, if_pos (by omega), if_neg hsecondary, List.append_nil]
      exact hrec
  | get k =>
    rw [events, List.append_nil]
    exact hrec.get k
  | getBy i x =>
    rw [events, List.append_nil]
    exact hrec.getBy i x
  | remove k => exact hrec.drop (hs.drops_remove k)
  | clear => exact records_clear s h

theorem history_snoc (s : Store) (ops : List Operation) (op : Operation) :
    s.history (ops ++ [op]) = s.history ops ++ (s.applyAll ops).events op := by
  induction ops generalizing s with
  | nil => rw [List.nil_append, history, history, history, List.append_nil, List.nil_append, applyAll_nil]
  | cons first ops ih => rw [List.cons_append, history, ih, history, List.append_assoc, applyAll_cons]

theorem WellFormed.records_applyAll (hs : s.WellFormed) (hrec : s.Records h)
    (ops : List Operation) : (s.applyAll ops).Records (h ++ s.history ops) := by
  induction ops generalizing s h with
  | nil => rwa [history, List.append_nil]
  | cons op ops ih =>
    rw [history, ← List.append_assoc]
    exact ih (hs.apply op) (hs.records_apply hrec op)

theorem Records.get_fst_eq_some_iff (hrec : s.Records h) :
    (s.get k).1 = some v ↔ Live h k ∧ LatestValue h k v := by
  rw [get_fst, hrec.value]

theorem Records.getBy_fst_eq_some_iff (hrec : s.Records h) {i : Index} {x : Key} :
    (s.getBy i x).1 = some v ↔ ∃ k, Linked h i x k ∧ LatestValue h k v := by
  cases hx : (s.index i)[x]? with
  | none =>
    rw [Store.getBy, hx]
    simp [← hrec.link, hx]
  | some k =>
    have hlinked : Linked h i x k := (hrec.link i x k).mp hx
    rw [getBy_eq_get hx, hrec.get_fst_eq_some_iff]
    simp only [← hrec.link, hx, Option.some.injEq, exists_eq_left', hlinked.live, true_and]

/-- A put is the latest event of the store that it leaves. -/
theorem WellFormed.exists_records_put (hs : s.WellFormed) (hrec : s.Records h)
    (hput : s.put draw k v secondary = .ok t) : ∃ h', t.Records (h' ++ [.put k v secondary]) := by
  have ht := hs.records_put hrec hput
  rw [events_put (put_eq_ok_iff.mp hput).1, ← List.append_assoc] at ht
  exact ⟨_, ht⟩

theorem WellFormed.get_put (hs : s.WellFormed) (hrec : s.Records h)
    (hput : s.put draw k v secondary = .ok t) : (t.get k).1 = some v := by
  obtain ⟨h', ht⟩ := hs.exists_records_put hrec hput
  rw [ht.get_fst_eq_some_iff]
  exact ⟨live_put.mpr (.inl rfl), latestValue_put.mpr (.inl ⟨rfl, rfl⟩)⟩

/-- A put leads its secondary keys to its value, and those that led to its key before go on doing so. -/
theorem WellFormed.getBy_put (hs : s.WellFormed) (hrec : s.Records h)
    (hput : s.put draw k v secondary = .ok t) {i : Index} {x : Key}
    (hx : i.among secondary = some x ∨ Linked h i x k) : (t.getBy i x).1 = some v := by
  by_cases hsupplied : i.among secondary = some x
  · obtain ⟨h', ht⟩ := hs.exists_records_put hrec hput
    rw [ht.getBy_fst_eq_some_iff]
    exact ⟨k, linked_put.mpr (.inl ⟨rfl, hsupplied⟩), latestValue_put.mpr (.inl ⟨rfl, rfl⟩)⟩
  · have hlinked : Linked h i x k := hx.resolve_left hsupplied
    have hk : k ∈ s.entries := hs.linked i x k ((hrec.link i x k).mpr hlinked)
    rw [(hrec.put hput (.inl hk)).getBy_fst_eq_some_iff]
    exact ⟨k, linked_put.mpr (.inr ⟨hsupplied, hlinked⟩), latestValue_put.mpr (.inl ⟨rfl, rfl⟩)⟩

/-- The secondary keys for one index do not matter to the answers of the other. -/
theorem Records.getBy_fst_congr {h' : List Event} {i : Index} (hs : s.Records h) (ht : t.Records h')
    (hhistory : h.map (Event.only i) = h'.map (Event.only i)) (x : Key) :
    (s.getBy i x).1 = (t.getBy i x).1 := by
  have hlinked (k : Key) : Linked h i x k ↔ Linked h' i x k := by
    rw [← linked_map_only, hhistory, linked_map_only]
  have hlatest (k : Key) (v : String) : LatestValue h k v ↔ LatestValue h' k v := by
    rw [← latestValue_map_only, hhistory, latestValue_map_only]
  apply Option.ext
  intro v
  simp only [hs.getBy_fst_eq_some_iff, ht.getBy_fst_eq_some_iff, hlinked, hlatest]

/-- After every run the answers are what the history of the run says. A look-up of a key finds a
value if and only if the key is alive and the value is that of its latest put. A look-up by a
secondary key finds a value if and only if the latest put that supplied the secondary key for that
index was a put of a key that has not ended since, and the value is that of the latest put of this
key. Every put with at most one secondary key for each index is accepted and becomes the latest event
of the history; before it one other key is dropped if the put is of a new key into a full store, and
none otherwise. Its value is found under its key, under its secondary keys and under those that led
to its key before. So a secondary key outlives further puts of its key, and the indexes do not
influence each other. -/
theorem answers_of_run (hash : RowHash) {rule : EvictionRule} {capacity : Nat}
    (hcapacity : rule = .none ∨ 1 ≤ capacity) (ops : List Operation) :
    ∃ s₀, create hash rule capacity = .ok s₀ ∧
      let s := s₀.applyAll ops
      let h := s₀.history ops
      (∀ k v, (s.get k).1 = some v ↔ Live h k ∧ LatestValue h k v) ∧
      (∀ i x v, (s.getBy i x).1 = some v ↔ ∃ k, Linked h i x k ∧ LatestValue h k v) ∧
      (∀ draw k v secondary, secondary.length ≤ maxSecondaryIndexes →
        let h' := s₀.history (ops ++ [.put draw k v secondary])
        ((k ∈ s.keys ∨ s.isFull = false) ∧ h' = h ++ [.put k v secondary] ∨
          k ∉ s.keys ∧ s.isFull = true ∧
            ∃ victim ∈ s.keys, h' = h ++ [.drop victim, .put k v secondary]) ∧
        ∃ t, s.put draw k v secondary = .ok t ∧ (t.get k).1 = some v ∧
          ∀ i x, i.among secondary = some x ∨ Linked h i x k → (t.getBy i x).1 = some v) ∧
      ∀ i ops', (s₀.history ops').map (Event.only i) = h.map (Event.only i) →
        ∀ x, ((s₀.applyAll ops').getBy i x).1 = (s.getBy i x).1 := by
  have hs₀ := wellFormed_fresh hash hcapacity
  have hrec (ops : List Operation) := hs₀.records_applyAll (records_fresh hash rule capacity) ops
  refine ⟨_, create_eq_ok_iff.mpr ⟨hcapacity, rfl⟩, ?_, ?_, ?_, ?_⟩
  · intro k v
    exact (hrec ops).get_fst_eq_some_iff
  · intro i x v
    exact (hrec ops).getBy_fst_eq_some_iff
  · intro draw k v secondary hsecondary h'
    have hs := hs₀.applyAll ops
    obtain ⟨t, hput⟩ : ∃ t, ((fresh hash rule capacity).applyAll ops).put draw k v secondary = .ok t :=
      ⟨_, put_eq_ok hsecondary⟩
    refine ⟨?_, t, hput, hs.get_put (hrec ops) hput, ?_⟩
    · simp only [h', history_snoc, mem_keys]
      rcases hs.events_put_cases hsecondary draw k v with
        ⟨hroom, hevents⟩ | ⟨hk, hfull, victim, hvictim, -, hevents⟩
      · exact .inl ⟨hroom, congrArg _ hevents⟩
      · exact .inr ⟨hk, hfull, victim, hvictim, congrArg _ hevents⟩
    · intro i x hx
      exact hs.getBy_put (hrec ops) hput hx
  · intro i ops' hhistory x
    exact (hrec ops').getBy_fst_congr (hrec ops) hhistory x

theorem answers_of_run_fifo :
    let ops : List Operation :=
      [.put 0 "a" "1" [some "x", some "y"], .put 0 "b" "2" [some "x"], .put 0 "c" "3" [none, some "z"],
        .put 0 "a" "4" [], .put 0 "c" "5" [some "w"]]
    let ops' : List Operation :=
      [.put 0 "a" "1" [some "u", some "y"], .put 0 "b" "2" [], .put 0 "c" "3" [some "x", some "z"],
        .put 0 "a" "4" [some "z"], .put 0 "c" "5" []]
    let h : List Event :=
      [.put "a" "1" [some "x", some "y"], .put "b" "2" [some "x"], .drop "a",
        .put "c" "3" [none, some "z"], .drop "b", .put "a" "4" [], .put "c" "5" [some "w"]]
    (EvictionRule.fifo = .none ∨ 1 ≤ 2) ∧
      ∃ s₀, create SipHash.rowHash .fifo 2 = .ok s₀ ∧
        let s := s₀.applyAll ops
        s₀.history ops = h ∧
        (s.get "a").1 = some "4" ∧ (s.get "c").1 = some "5" ∧ (s.get "b").1 = none ∧
        (s.getBy .one "w").1 = some "5" ∧ (s.getBy .two "z").1 = some "5" ∧
        (s.getBy .one "x").1 = none ∧ (s.getBy .two "y").1 = none ∧
        (∃ t, s.put 0 "c" "6" [some "v"] = .ok t ∧ (t.get "c").1 = some "6" ∧
          (t.getBy .one "v").1 = some "6" ∧ (t.getBy .two "z").1 = some "6") ∧
        (s₀.history ops').map (Event.only .two) = h.map (Event.only .two) ∧
        ((s₀.applyAll ops').getBy .two "z").1 = some "5" := by
  intro ops ops' h
  have hcapacity : EvictionRule.fifo = .none ∨ 1 ≤ 2 := .inr (by decide)
  obtain ⟨s₀, hcreate, hget, hgetBy, hput, hindexes⟩ :=
    answers_of_run SipHash.rowHash hcapacity ops
  refine ⟨hcapacity, s₀, hcreate, ?_⟩
  obtain ⟨-, rfl⟩ := create_eq_ok_iff.mp hcreate
  have hhistory : (fresh SipHash.rowHash .fifo 2).history ops = h := by
    subst ops h
    cbv
  have hsame : ((fresh SipHash.rowHash .fifo 2).history ops').map (Event.only .two) =
      h.map (Event.only .two) := by
    subst ops' h
    cbv
  intro s
  rw [hhistory] at hget hgetBy hput hindexes
  have hlive : Live h "a" := by simp [h, Live, since_cons, Event.Puts, Event.Ends]
  have hvalue : LatestValue h "a" "4" := by simp [h, LatestValue, since_cons, Event.Puts]
  have hvalue' : LatestValue h "c" "5" := by simp [h, LatestValue, since_cons, Event.Puts]
  have hended : ¬ Live h "b" := by simp [h, Live, since_cons, Event.Puts, Event.Ends]
  have hw : Linked h .one "w" "c" := by
    simp [h, Linked, since_cons, Event.Leads, Event.Ends, Index.among]
  have hz : Linked h .two "z" "c" := by
    simp [h, Linked, since_cons, Event.Leads, Event.Ends, Index.among]
  have hx (k : Key) : ¬ Linked h .one "x" k := by
    simp +contextual [h, Linked, since_cons, Event.Leads, Event.Ends, Index.among]
  have hy (k : Key) : ¬ Linked h .two "y" k := by
    simp +contextual [h, Linked, since_cons, Event.Leads, Event.Ends, Index.among]
  obtain ⟨-, t, ht, hgett, hgetByt⟩ := hput 0 "c" "6" [some "v"] (by decide)
  refine ⟨hhistory, ?_, ?_, ?_, ?_, ?_, ?_, ?_, ⟨t, ht, hgett, ?_, ?_⟩, hsame, ?_⟩
  · exact (hget "a" "4").mpr ⟨hlive, hvalue⟩
  · exact (hget "c" "5").mpr ⟨hw.live, hvalue'⟩
  · rw [Option.eq_none_iff_forall_ne_some]
    intro v hv
    exact hended ((hget "b" v).mp hv).1
  · exact (hgetBy .one "w" "5").mpr ⟨"c", hw, hvalue'⟩
  · exact (hgetBy .two "z" "5").mpr ⟨"c", hz, hvalue'⟩
  · rw [Option.eq_none_iff_forall_ne_some]
    intro v hv
    obtain ⟨k, hlinked, -⟩ := (hgetBy .one "x" v).mp hv
    exact hx k hlinked
  · rw [Option.eq_none_iff_forall_ne_some]
    intro v hv
    obtain ⟨k, hlinked, -⟩ := (hgetBy .two "y" v).mp hv
    exact hy k hlinked
  · exact hgetByt .one "v" (.inl rfl)
  · exact hgetByt .two "z" (.inr hz)
  · rw [hindexes .two ops' hsame]
    exact (hgetBy .two "z" "5").mpr ⟨"c", hz, hvalue'⟩

end Store

end CacheServer
