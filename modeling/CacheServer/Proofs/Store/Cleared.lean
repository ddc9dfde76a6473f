import CacheServer.Eviction.SipHash
import CacheServer.Proofs.Eviction.Cleared
import CacheServer.Proofs.Store.Calls
import CacheServer.Proofs.Store.Observation

/-!
A store that has been cleared. Its clocks have gone on, but nothing that a client can see depends on where
they stand, so from there on the store cannot be told from a new one.
-/

namespace CacheServer

/-- Whether a request drops all keys at once. -/
def Request.clears : Request → Bool
  | .operation .clear => true
  | .operation _ => false
  | .line _ text => Command.ofLine text matches .ok .reset

namespace Store

open Std

variable {s t : Store} {k : Key}

/-- Stores that differ in their bookkeepings alone, between which no call can tell. -/
def Alike (s t : Store) : Prop :=
  ∃ p, s.policy.Alike p ∧ t = { s with policy := p }

namespace Alike

theorem refl (s : Store) : s.Alike s :=
  ⟨s.policy, .same _, rfl⟩

theorem rule_eq (h : s.Alike t) : t.rule = s.rule := by
  obtain ⟨p, -, rfl⟩ := h
  rfl

theorem entries_eq (h : s.Alike t) : t.entries = s.entries := by
  obtain ⟨p, -, rfl⟩ := h
  rfl

theorem index_eq (h : s.Alike t) (i : Index) : t.index i = s.index i := by
  obtain ⟨p, -, rfl⟩ := h
  cases i <;> rfl

theorem isFull_eq (h : s.Alike t) : t.isFull = s.isFull := by
  obtain ⟨p, -, rfl⟩ := h
  rfl

/-- The same key goes. -/
theorem evict (h : s.Alike t) (draw : Nat) : (s.evict draw).Alike (t.evict draw) := by
  obtain ⟨p, hp, rfl⟩ := h
  unfold Store.evict
  dsimp only
  obtain ⟨hnone, hnone'⟩ | ⟨victim, rest, rest', hvictim, hvictim', hrest⟩ := (hp.victim? draw).none_or_some
  · rw [hnone, hnone']
    exact ⟨p, hp, rfl⟩
  · rw [hvictim, hvictim']
    exact ⟨rest', hrest, rfl⟩

theorem makeRoom (h : s.Alike t) (draw : Nat) : (s.makeRoom draw).Alike (t.makeRoom draw) := by
  unfold Store.makeRoom
  rw [h.isFull_eq]
  split
  · exact h.evict draw
  · exact h

theorem write (h : s.Alike t) (hs : s.WellFormed) (draw : Nat) (k : Key) (v : String) :
    (s.write draw k v).Alike (t.write draw k v) := by
  have hentries := h.entries_eq
  cases he : s.entries[k]? with
  | some e =>
    rw [write_of_getElem? he, write_of_getElem? (hentries ▸ he)]
    obtain ⟨p, hp, rfl⟩ := h
    exact ⟨p.used k, hp.used k, rfl⟩
  | none =>
    have hk : k ∉ s.entries := (getElem?_eq_none_iff s.entries k).mp he
    have hfree := (hs.makeRoom draw).not_mem_residents (not_mem_makeRoom hk draw)
    rw [write_eq_makeRoom hk, write_eq_makeRoom (hentries ▸ hk)]
    obtain ⟨p, hp, hroom⟩ := h.makeRoom draw
    rw [hroom]
    exact ⟨p.inserted k, hp.inserted hfree, rfl⟩

/-- Both puts are done, or both fail alike. -/
theorem put (h : s.Alike t) (hs : s.WellFormed) (draw : Nat) (k : Key) (v : String)
    (secondary : List (Option Key)) :
    (∃ s' t', s.put draw k v secondary = .ok s' ∧ t.put draw k v secondary = .ok t' ∧ s'.Alike t') ∨
      ∃ fault, s.put draw k v secondary = .error fault ∧ t.put draw k v secondary = .error fault := by
  by_cases hsecondary : secondary.length ≤ maxSecondaryIndexes
  · refine .inl ⟨_, _, put_eq_ok hsecondary, put_eq_ok hsecondary, ?_⟩
    obtain ⟨p, hp, hwrite⟩ := h.write hs draw k v
    rw [hwrite]
    exact ⟨p, hp, rfl⟩
  · refine .inr ⟨.tooManySecondaryIndexes secondary.length, ?_, ?_⟩
    · rw [Store.put, if_pos (by omega)]
    · rw [Store.put, if_pos (by omega)]

theorem get (h : s.Alike t) (k : Key) : (s.get k).1 = (t.get k).1 ∧ (s.get k).2.Alike (t.get k).2 := by
  obtain ⟨p, hp, rfl⟩ := h
  unfold Store.get
  dsimp only
  split
  · exact ⟨rfl, p, hp, rfl⟩
  · exact ⟨rfl, p.used k, hp.used k, rfl⟩

theorem getBy (h : s.Alike t) (i : Index) (x : Key) :
    (s.getBy i x).1 = (t.getBy i x).1 ∧ (s.getBy i x).2.Alike (t.getBy i x).2 := by
  unfold Store.getBy
  rw [h.index_eq]
  split
  · exact ⟨rfl, h⟩
  · exact h.get _

theorem remove (h : s.Alike t) (k : Key) :
    (s.remove k).1 = (t.remove k).1 ∧ (s.remove k).2.Alike (t.remove k).2 := by
  obtain ⟨p, hp, rfl⟩ := h
  unfold Store.remove
  dsimp only
  split
  · exact ⟨rfl, p, hp, rfl⟩
  · exact ⟨rfl, p.removed k, hp.removed k, rfl⟩

theorem removeAll (h : s.Alike t) (ks : List Key) : (s.removeAll ks).Alike (t.removeAll ks) := by
  induction ks generalizing s t with
  | nil => exact h
  | cons k ks ih => exact ih (h.remove k).2

theorem clear (h : s.Alike t) : s.clear.Alike t.clear := by
  obtain ⟨p, hp, rfl⟩ := h
  exact ⟨p.cleared, hp.cleared, rfl⟩

/-- A command is answered alike, if a purge goes through the keys in the same order. -/
theorem runIn (h : s.Alike t) (hs : s.WellFormed) (e : Enumeration) (draw : Nat) (command : Command) :
    (s.runIn e draw command).1 = (t.runIn e draw command).1 ∧
      (s.runIn e draw command).2.Alike (t.runIn e draw command).2 := by
  cases command with
  | ping => exact ⟨rfl, h⟩
  | get k => exact (h.get k).imp_left (congrArg Reply.ofFound)
  | getBy i x => exact (h.getBy i x).imp_left (congrArg Reply.ofFound)
  | set k v one two =>
    simp only [Store.runIn, run]
    obtain ⟨s', t', hput, hput', hnext⟩ | ⟨fault, hput, hput'⟩ := h.put hs draw k v [one, two]
    · rw [hput, hput']
      exact ⟨rfl, hnext⟩
    · rw [hput, hput']
      exact ⟨rfl, h⟩
  | del k => exact ⟨rfl, (h.remove k).2⟩
  | purge stem =>
    have hkeys : t.keys = s.keys := congrArg ExtTreeMap.keys h.entries_eq
    simp only [Store.runIn, hkeys]
    exact ⟨trivial, h.removeAll _⟩
  | reset => exact ⟨rfl, h.clear⟩

theorem respond (h : s.Alike t) (hs : s.WellFormed) (e : Enumeration) (request : Request) :
    (s.respond e request).1 = (t.respond e request).1 ∧
      (s.respond e request).2.Alike (t.respond e request).2 := by
  cases request with
  | operation op =>
    cases op with
    | put draw k v secondary =>
      simp only [Store.respond]
      obtain ⟨s', t', hput, hput', hnext⟩ | ⟨fault, hput, hput'⟩ := h.put hs draw k v secondary
      · rw [hput, hput']
        exact ⟨rfl, hnext⟩
      · rw [hput, hput']
        exact ⟨rfl, h⟩
    | get k => exact (h.get k).imp_left (congrArg Answer.found)
    | getBy i x => exact (h.getBy i x).imp_left (congrArg Answer.found)
    | remove k => exact (h.remove k).imp_left (congrArg Answer.found)
    | clear => exact ⟨rfl, h.clear⟩
  | line draw text =>
    simp only [Store.respond, executeIn]
    cases Command.ofLine text with
    | error fault => exact ⟨rfl, h⟩
    | ok command => exact (h.runIn hs e draw command).imp_left (congrArg Answer.reply)

theorem observe_eq (h : s.Alike t) (hs : s.WellFormed) (e : Enumeration) (request : Request) :
    s.observe e request = t.observe e request := by
  obtain ⟨hanswer, p, -, hnext⟩ := h.respond hs e request
  simp only [observe, keys, containsKey, h.entries_eq, hanswer, hnext]

/-- Nothing is ever seen that differs, whatever is requested. -/
theorem observeAll_eq (h : s.Alike t) (hs : s.WellFormed) (ht : t.WellFormed) {es es' : Nat → Enumeration}
    (hes : s.rule = .random → es = es') (requests : List Request) :
    s.observeAll es requests = t.observeAll es' requests := by
  induction requests generalizing s t es es' with
  | nil => rfl
  | cons request requests ih =>
    have hsame : t.respond (es 0) request = t.respond (es' 0) request := by
      by_cases hrule : s.rule = .random
      · rw [hes hrule]
      · exact ht.respond_congr (h.rule_eq ▸ hrule) _ _ request
    have hobserve : t.observe (es 0) request = t.observe (es' 0) request := by
      rw [observe, observe, hsame]
    rw [observeAll, observeAll, h.observe_eq hs, hobserve, ← hsame]
    congr 1
    refine ih (h.respond hs (es 0) request).2 (hs.respond _ _) (ht.respond _ _) fun hrule => ?_
    rw [rule_respond] at hrule
    rw [hes hrule]

end Alike

/-- A store that a run has reached and that is cleared then is like the new one. -/
theorem alike_clear_applyAll (hash : RowHash) (rule : EvictionRule) (capacity : Nat) (ops : List Operation) :
    ((fresh hash rule capacity).applyAll ops).clear.Alike (fresh hash rule capacity) := by
  have hbound := bound_applyAll (fresh hash rule capacity) ops
  have hpolicy := policy_applyAll (fresh hash rule capacity) ops
  generalize (fresh hash rule capacity).applyAll ops = s at hbound hpolicy
  have hblank : s.policy.blank = .ofRule hash capacity rule := by
    rw [hpolicy, Policy.blank_applyAll]
    exact Policy.blank_ofRule hash capacity rule
  obtain ⟨hrule, hcapacity⟩ := Prod.mk.inj hbound
  refine ⟨.ofRule hash capacity rule, hblank ▸ s.policy.alike_blank, ?_⟩
  exact (Store.mk.injEq ..).mpr ⟨hrule.symm, hcapacity.symm, rfl, rfl, rfl, rfl⟩

theorem serve_of_clears {request : Request} (hreset : request.clears = true) (s : Store) :
    s.serve request = s.clear := by
  cases request with
  | operation op =>
    cases op with
    | clear => rfl
    | _ => cases hreset
  | line draw text =>
    rw [Request.clears] at hreset
    rw [serve, execute]
    split at hreset
    case h_1 hcommand => rw [hcommand]; rfl
    case h_2 => cases hreset

/-- A store that is cleared, whatever it has been asked before, is seen to do from there on what a new store
of its rule and capacity is seen to do: it gives the same answers, drives out the same keys, and holds the
same values, hits and index entries. By every rule but the random one it does not matter either in which
orders purges go through the keys of the two stores. -/
theorem cleared_observed_as_new (hash : RowHash) {rule : EvictionRule} {capacity : Nat}
    (hcapacity : rule = .none ∨ 1 ≤ capacity) (earlier : List Request) (es₀ : Nat → Enumeration)
    {reset : Request} (hreset : reset.clears = true) (later : List Request) {es es' : Nat → Enumeration}
    (hes : rule = .random → es = es') :
    ∃ s₀, create hash rule capacity = .ok s₀ ∧
      ((s₀.respondAll es₀ earlier).serve reset).observeAll es later = s₀.observeAll es' later := by
  refine ⟨_, create_eq_ok_iff.mpr ⟨hcapacity, rfl⟩, ?_⟩
  have hfresh := wellFormed_fresh hash hcapacity
  obtain ⟨ops, hops⟩ := (fresh hash rule capacity).exists_operations_of_respondAll es₀ earlier
  have halike := alike_clear_applyAll hash rule capacity ops
  rw [hops, serve_of_clears hreset]
  refine halike.observeAll_eq (hfresh.applyAll ops).clear hfresh (fun hrule => hes ?_) later
  exact halike.rule_eq.trans hrule

theorem cleared_observed_as_new_lfu :
    let earlier : List Request := [.line 0 "SET ka 1 IDX1 x", .line 0 "SET kb 2", .line 0 "GETIDX1 x"]
    let reset : Request := .line 0 "RESET CONFIRM"
    let puts : List Request := [.operation (.put 0 "ka" "3" []), .operation (.put 0 "kc" "4" []),
      .operation (.get "kc"), .operation (.put 0 "kd" "5" [])]
    let later := puts ++ [.line 0 "PURGE k"]
    let es : Nat → Enumeration := fun _ => ⟨List.reverse, List.reverse_perm⟩
    let es' : Nat → Enumeration := fun _ => .listed
    (EvictionRule.lfu = .none ∨ 1 ≤ 2) ∧ reset.clears = true ∧ (EvictionRule.lfu = .random → es = es') ∧
      ∃ s₀, create SipHash.rowHash .lfu 2 = .ok s₀ ∧
        let s := (s₀.respondAll es earlier).serve reset
        s.observeAll es later = s₀.observeAll es' later ∧
        (s.observeAll es puts).map Observation.gone = [[], [], [], ["ka"]] := by
  intro earlier reset puts later es es'
  have hcapacity : EvictionRule.lfu = .none ∨ 1 ≤ 2 := .inr (by decide)
  have hreset : reset.clears = true := by decide +kernel
  have hes : EvictionRule.lfu = .random → es = es' := fun hrule => by cases hrule
  obtain ⟨s₀, hcreate, hlater⟩ :=
    cleared_observed_as_new SipHash.rowHash hcapacity earlier es hreset later hes
  obtain ⟨s₁, hcreate', hputs⟩ :=
    cleared_observed_as_new SipHash.rowHash hcapacity earlier es hreset puts hes
  obtain ⟨-, rfl⟩ := create_eq_ok_iff.mp hcreate
  obtain ⟨-, rfl⟩ := create_eq_ok_iff.mp hcreate'
  refine ⟨hcapacity, hreset, hes, _, hcreate, hlater, ?_⟩
  rw [hputs]
  cbv

end Store

end CacheServer
