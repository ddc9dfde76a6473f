import CacheServer.Eviction.SipHash
import CacheServer.Proofs.Store.Cleared
import CacheServer.Proofs.Store.Effect

/-!
Purges. A purge removes its keys one after another, in an order that the client does not know. What is left of
the entries and of the indexes can be said without that order, and by every rule but the random one the
bookkeeping, too, is the same in the end.
-/

namespace CacheServer

open Std Text

namespace Reply

theorem ofPurge_of_ne_zero {count : Nat} (hcount : count ≠ 0) (stem : Key) : ofPurge stem count =
    .text ("OK: Purged " ++ Decimal.ofNat count ++ " key(s) matching prefix '" ++ stem ++ "'.") := by
  rw [ofPurge, if_neg hcount]

/-- No number of purged keys is told in the words that tell that there were none. -/
theorem ofPurge_eq_none_matched_iff {stem : Key} {count : Nat} :
    ofPurge stem count = .text ("OK: No keys matched the prefix '" ++ stem ++ "'.") ↔ count = 0 := by
  by_cases hcount : count = 0
  · rw [ofPurge, if_pos hcount]
    exact iff_of_true rfl hcount
  · rw [ofPurge_of_ne_zero hcount]
    refine iff_of_false (fun heq => ?_) hcount
    have hchars := congrArg String.toList (Reply.text.inj heq)
    simp at hchars

end Reply

namespace Store

variable {s t : Store} {goes : Key → Bool}

theorem Loses.entries_eq (h : s.Loses goes t) : t.entries = s.entries.filter fun k _ => !goes k := by
  apply ExtTreeMap.ext_getElem?
  intro k
  rw [h.entry, ExtTreeMap.getElem?_filter']
  cases goes k with
  | true => simp
  | false => cases s.entries[k]? <;> rfl

theorem Loses.index_eq (h : s.Loses goes t) (i : Index) :
    t.index i = (s.index i).filter fun _ k => !goes k := by
  apply ExtTreeMap.ext_getElem?
  intro x
  apply Option.ext
  intro k
  rw [h.link, ExtTreeMap.getElem?_filter', Option.filter_eq_some_iff, and_comm, Bool.not_eq_true']

theorem Loses.keys_perm (h : s.Loses goes t) : t.keys.Perm (s.keys.filter (!goes ·)) := by
  rw [List.perm_ext_iff_of_nodup t.nodup_keys (s.nodup_keys.filter _)]
  intro k
  rw [mem_keys, List.mem_filter, mem_keys, mem_entries_iff, mem_entries_iff, h.entry]
  cases goes k <;> simp

/-- Every key that goes is counted once. -/
theorem Loses.length_filter_keys (h : s.Loses goes t) : (s.keys.filter goes).length = s.size - t.size := by
  have hstay := h.keys_perm.length_eq
  have hboth := List.length_eq_length_filter_add (l := s.keys) goes
  rw [length_keys] at hstay hboth
  omega

theorem executeIn_of_ok {line : String} {command : Command} (hline : Command.ofLine line = .ok command)
    (s : Store) (e : Enumeration) (draw : Nat) : s.executeIn e draw line = s.runIn e draw command := by
  rw [executeIn, hline]

theorem WellFormed.loses_runIn_purge (hs : s.WellFormed) (e : Enumeration) (draw : Nat) (stem : Key) :
    s.Loses (beginsWith stem) (s.runIn e draw (.purge stem)).2 :=
  hs.loses_purge (e.perm _)

theorem WellFormed.runIn_purge (hs : s.WellFormed) (e : Enumeration) (draw : Nat) (stem : Key) :
    (s.runIn e draw (.purge stem)).2.WellFormed := by
  rw [runIn, removeAll_eq_applyAll]
  exact hs.applyAll _

/-- The reply counts the keys that are gone. -/
theorem WellFormed.reply_runIn_purge (hs : s.WellFormed) (e : Enumeration) (draw : Nat) (stem : Key) :
    (s.runIn e draw (.purge stem)).1 =
      .ofPurge stem (s.size - (s.runIn e draw (.purge stem)).2.size) := by
  rw [← (hs.loses_runIn_purge e draw stem).length_filter_keys]
  rfl

theorem Loses.size_sub_eq_zero_iff (h : s.Loses goes t) :
    s.size - t.size = 0 ↔ ∀ k ∈ s.entries, goes k = false := by
  rw [← h.length_filter_keys, List.length_eq_zero_iff, List.filter_eq_nil_iff]
  simp only [mem_keys, Bool.not_eq_true]

/-- In every store that a run reaches, in whatever order a purge goes through the keys, it leaves exactly the
entries whose keys do not begin with the prefix, as they were, and exactly the index entries that lead to such
keys. The reply tells how many keys are gone, or that there were none to go. By every rule but the random one
the store afterwards, with the bookkeeping of its rule, is the same for every order, so whatever is requested
from there on, the same keys are driven out and the same answers given. -/
theorem purge_in_any_order (hash : RowHash) {rule : EvictionRule} {capacity : Nat}
    (hcapacity : rule = .none ∨ 1 ≤ capacity) (es₀ : Nat → Enumeration) (earlier : List Request) (stem : Key) :
    ∃ s₀, create hash rule capacity = .ok s₀ ∧
      let s := s₀.respondAll es₀ earlier
      (∀ e draw,
        let reply := (s.runIn e draw (.purge stem)).1
        let t := (s.runIn e draw (.purge stem)).2
        t.entries = (s.entries.filter fun k _ => !beginsWith stem k) ∧
        (∀ i, t.index i = (s.index i).filter fun _ k => !beginsWith stem k) ∧
        (reply = .text ("OK: No keys matched the prefix '" ++ stem ++ "'.") ↔
          ∀ k ∈ s.entries, beginsWith stem k = false) ∧
        ((∃ k ∈ s.entries, beginsWith stem k = true) →
          reply = .text ("OK: Purged " ++ Decimal.ofNat (s.size - t.size) ++ " key(s) matching prefix '" ++
            stem ++ "'.")) ∧
        ∀ line, Command.ofLine line = .ok (.purge stem) → s.executeIn e draw line = (reply, t)) ∧
      (rule ≠ .random →
        (∀ k k', (s.policy.removed k).removed k' = (s.policy.removed k').removed k) ∧
        ∀ e e' draw draw', s.runIn e draw (.purge stem) = s.runIn e' draw' (.purge stem) ∧
          ∀ es es' later, (s.runIn e draw (.purge stem)).2.observeAll es later =
            (s.runIn e' draw' (.purge stem)).2.observeAll es' later) := by
  refine ⟨_, create_eq_ok_iff.mpr ⟨hcapacity, rfl⟩, ?_⟩
  intro s
  obtain ⟨ops, hops⟩ : ∃ ops, s = (fresh hash rule capacity).applyAll ops :=
    exists_operations_of_respondAll _ es₀ earlier
  have hs : s.WellFormed := hops ▸ (wellFormed_fresh hash hcapacity).applyAll ops
  have hsrule : s.rule = rule := hops ▸ congrArg Prod.fst (bound_applyAll (fresh hash rule capacity) ops)
  rw [← hsrule]
  refine ⟨fun e draw => ?_, fun hrule => ⟨fun k k' => ?_, fun e e' draw draw' => ?_⟩⟩
  · have hloses := hs.loses_runIn_purge e draw stem
    have hreply := hs.reply_runIn_purge e draw stem
    refine ⟨hloses.entries_eq, hloses.index_eq, ?_, ?_, fun line hline => executeIn_of_ok hline s e draw⟩
    · rw [hreply, Reply.ofPurge_eq_none_matched_iff, hloses.size_sub_eq_zero_iff]
    · rintro ⟨k, hk, hgoes⟩
      have hne : s.size - (s.runIn e draw (.purge stem)).2.size ≠ 0 := by
        rw [Ne, hloses.size_sub_eq_zero_iff]
        intro hnone
        rw [hnone k hk] at hgoes
        cases hgoes
      rw [hreply, Reply.ofPurge_of_ne_zero hne]
  · exact hs.policy.removed_comm (hs.rule ▸ hrule) k k'
  · have hsame := hs.runIn_purge_congr hrule e e' draw draw' stem
    have ht := hs.runIn_purge e' draw' stem
    have hbound := congrArg Prod.fst (hs.loses_runIn_purge e' draw' stem).bound
    refine ⟨hsame, fun es es' later => ?_⟩
    rw [hsame]
    exact (Alike.refl _).observeAll_eq ht ht (fun hrandom => absurd (hbound.symm.trans hrandom) hrule) later

theorem purge_in_any_order_clock :
    let earlier : List Request := [.operation (.put 0 "ka" "1" [some "x"]), .operation (.put 0 "kb" "2" []),
      .operation (.put 0 "c" "3" [some "y"]), .operation (.get "c")]
    let later : List Request := [.operation (.put 0 "d" "4" []), .operation (.put 0 "e" "5" []),
      .operation (.put 0 "f" "6" []), .line 0 "PURGE e"]
    let backward : Enumeration := ⟨List.reverse, List.reverse_perm⟩
    (EvictionRule.clock = .none ∨ 1 ≤ 3) ∧ EvictionRule.clock ≠ .random ∧
      Command.ofLine "PURGE k" = .ok (.purge "k") ∧
      ∃ s₀, create SipHash.rowHash .clock 3 = .ok s₀ ∧
        let s := s₀.respondAll (fun _ => .listed) earlier
        let answer := s.executeIn backward 0 "PURGE k"
        (∃ k ∈ s.entries, beginsWith "k" k = true) ∧
          answer.1 = .text "OK: Purged 2 key(s) matching prefix 'k'." ∧ answer.2.keys = ["c"] ∧
          answer.2.indexOne.toList = [("y", "c")] ∧ answer = s.executeIn .listed 0 "PURGE k" ∧
          answer.2.observeAll (fun _ => backward) later =
            (s.executeIn .listed 0 "PURGE k").2.observeAll (fun _ => .listed) later := by
  intro earlier later backward
  have hcapacity : EvictionRule.clock = .none ∨ 1 ≤ 3 := .inr (by decide)
  have hrule : EvictionRule.clock ≠ .random := by decide
  have hline : Command.ofLine "PURGE k" = .ok (.purge "k") := rfl
  obtain ⟨s₀, hcreate, hpurge, hsame⟩ :=
    purge_in_any_order SipHash.rowHash hcapacity (fun _ => .listed) earlier "k"
  refine ⟨hcapacity, hrule, hline, s₀, hcreate, ?_⟩
  obtain ⟨-, rfl⟩ := create_eq_ok_iff.mp hcreate
  intro s answer
  obtain ⟨-, -, -, hreply, hlines⟩ := hpurge backward 0
  obtain ⟨-, -, -, -, hlisted⟩ := hpurge .listed 0
  obtain ⟨heq, hlater⟩ := (hsame hrule).2 backward .listed 0 0
  have hmatching : ∃ k ∈ s.entries, beginsWith "k" k = true :=
    ⟨"ka", by decide +kernel, by decide⟩
  have hcount : s.size - (s.runIn backward 0 (.purge "k")).2.size = 2 := by decide +kernel
  have hkeys : (s.runIn backward 0 (.purge "k")).2.keys = ["c"] := by decide +kernel
  have hindex : (s.runIn backward 0 (.purge "k")).2.indexOne.toList = [("y", "c")] := by decide +kernel
  have hanswer : answer = s.runIn backward 0 (.purge "k") := hlines _ hline
  refine ⟨hmatching, ?_⟩
  rw [hanswer, hlisted _ hline]
  refine ⟨?_, hkeys, hindex, heq, hlater _ _ later⟩
  rw [hreply hmatching, hcount]
  decide +kernel

end Store

end CacheServer
