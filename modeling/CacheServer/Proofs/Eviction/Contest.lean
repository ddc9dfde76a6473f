import CacheServer.Proofs.Eviction.Call
import CacheServer.Proofs.Eviction.Order

/-!
The window and the main list of the rule TINYLFU through runs of calls. The window stays within its share of
the capacity. A key becomes the newest of its list as it comes, as it is used, and as it moves to main, so
each list is in the order of these touches.
-/

namespace CacheServer

/-- The key that a call brings or uses. -/
def Call.touched? : Call → Option Key
  | .inserted k | .used k => some k
  | .removed _ | .victim _ | .cleared => none

namespace Admission

variable {a rest : Admission} {k : Key} {l : List Key} {capacity : Nat}

/-- The window and main after a call. -/
def apply (a : Admission) : Call → Admission
  | .inserted k => a.add k
  | .used k => a.use k
  | .removed k => a.erase k
  | .victim _ => (a.take?.map Prod.snd).getD a
  | .cleared => a.clear

def applyAll (a : Admission) (calls : List Call) : Admission :=
  calls.foldl apply a

theorem tinyLfu_apply (a : Admission) (call : Call) :
    (Policy.tinyLfu a).apply call = .tinyLfu (a.apply call) := by
  cases call with
  | victim draw =>
    rw [Policy.apply, Policy.victim?, apply]
    cases a.take? <;> rfl
  | _ => rfl

theorem tinyLfu_applyAll (a : Admission) (calls : List Call) :
    (Policy.tinyLfu a).applyAll calls = .tinyLfu (a.applyAll calls) := by
  induction calls generalizing a with
  | nil => rfl
  | cons call calls ih =>
    rw [Policy.applyAll, List.foldl_cons, tinyLfu_apply]
    exact ih (a.apply call)

/-- The keys that become the newest of their list in a call: the one that the call brings or uses, and the one
that moves from the window to main. -/
def touched (a : Admission) (call : Call) : List Key :=
  call.touched?.toList ++ (a.apply call).main.toList.filter (· ∉ a.main.toList)

/-- The touches in a run of calls, in their order. -/
def touches : Admission → List Call → List Key
  | _, [] => []
  | a, call :: calls => a.touched call ++ (a.apply call).touches calls

/-- The window is within its share of the capacity. -/
structure Bounded (capacity : Nat) (a : Admission) : Prop where
  windowCapacity : a.windowCapacity = max 1 (capacity / 100)
  window : a.window.size ≤ a.windowCapacity

/-- The two lists are in the order of the touches so far. -/
structure Follows (a : Admission) (l : List Key) : Prop where
  window : InOrder l a.window.toList
  main : InOrder l a.main.toList

theorem bounded_ofCapacity (hash : RowHash) (capacity : Nat) :
    (ofCapacity hash capacity).Bounded capacity :=
  ⟨rfl, Nat.zero_le _⟩

theorem follows_ofCapacity (hash : RowHash) (capacity : Nat) : (ofCapacity hash capacity).Follows [] := by
  constructor <;> simp [ofCapacity, InOrder.nil]

theorem WellFormed.nodup_window (h : a.WellFormed) : a.window.toList.Nodup :=
  (List.nodup_append.mp h.nodup).1

theorem WellFormed.nodup_main (h : a.WellFormed) : a.main.toList.Nodup :=
  (List.nodup_append.mp h.nodup).2.1

/-- A key comes to the window as its newest. If the window is at its share, its oldest key moves to main. -/
theorem WellFormed.add_cases (h : a.WellFormed) (hk : k ∉ a.window.toList) :
    (a.add k).windowCapacity = a.windowCapacity ∧
    (a.window.size < a.windowCapacity ∧ (a.add k).window.toList = a.window.toList ++ [k] ∧
        (a.add k).main = a.main ∨
      a.windowCapacity ≤ a.window.size ∧ ∃ oldest,
        a.window.toList ++ [k] = oldest :: (a.add k).window.toList ∧
        (a.add k).main = a.main.touch oldest) := by
  have hsize := h.window.size_touch_of_not_mem hk
  have hlist := h.window.toList_touch_of_not_mem hk
  unfold Admission.add Admission.overflow
  dsimp only
  split
  case isFalse hroom => exact ⟨rfl, .inl ⟨by omega, hlist, rfl⟩⟩
  case isTrue hover =>
    split
    case h_1 oldest window htake =>
      have hsplit := ((h.window.touch k).takeOldest? htake).2
      exact ⟨rfl, .inr ⟨by omega, oldest, by rw [← hlist, hsplit], rfl⟩⟩
    case h_2 htake =>
      rw [Recency.takeOldest?_eq_none_iff, hlist] at htake
      simp at htake

/-- The key to go. If main has keys, its oldest goes if the oldest of the window has a higher estimate and
takes its place; else the oldest of the window goes. -/
theorem WellFormed.take?_cases (h : a.WellFormed) (htake : a.take? = some (k, rest)) :
    rest.windowCapacity = a.windowCapacity ∧
    ((∃ oldest, a.window.toList = oldest :: rest.window.toList ∧ a.main.toList.head? = some k ∧
        a.sketch.estimate k < a.sketch.estimate oldest ∧
        rest.main.toList = a.main.toList.tail ++ [oldest]) ∨
      (a.window.toList = k :: rest.window.toList ∧ rest.main = a.main ∧
        ∀ resident, a.main.toList.head? = some resident →
          a.sketch.estimate k ≤ a.sketch.estimate resident) ∨
      a.window.toList = [] ∧ rest.window = a.window ∧ a.main.toList = k :: rest.main.toList) := by
  have hdisjoint (oldest : Key) := h.not_mem_main (k := oldest)
  unfold Admission.take? at htake
  rw [a.window.oldest?_eq_head?, a.main.oldest?_eq_head?] at htake
  split at htake
  case h_1 oldest resident holdest hresident =>
    obtain ⟨ws, hwindow⟩ := List.head?_eq_some_iff.mp holdest
    obtain ⟨ms, hmain⟩ := List.head?_eq_some_iff.mp hresident
    have herase : (a.window.erase oldest).toList = ws := by
      rw [h.window.toList_erase, hwindow, List.erase_cons_head]
    dsimp only at htake
    split at htake
    case isTrue hlt =>
      obtain ⟨rfl, rfl⟩ := Prod.mk.inj (Option.some.inj htake)
      have hleft : (a.main.erase resident).toList = ms := by
        rw [h.main.toList_erase, hmain, List.erase_cons_head]
      have hnew : oldest ∉ (a.main.erase resident).toList := by
        rw [hleft]
        intro hmem
        refine hdisjoint oldest (by rw [hwindow]; exact List.mem_cons_self) ?_
        rw [hmain]
        exact List.mem_cons_of_mem resident hmem
      refine ⟨rfl, .inl ⟨oldest, by rw [hwindow, herase], hresident, hlt, ?_⟩⟩
      rw [(h.main.erase resident).toList_touch_of_not_mem hnew, hleft, hmain, List.tail_cons]
    case isFalse hle =>
      obtain ⟨rfl, rfl⟩ := Prod.mk.inj (Option.some.inj htake)
      refine ⟨rfl, .inr (.inl ⟨by rw [hwindow, herase], rfl, fun m hm => ?_⟩)⟩
      obtain rfl : resident = m := Option.some.inj (hresident.symm.trans hm)
      omega
  case h_2 hnone =>
    obtain ⟨⟨found, window⟩, hfound, heq⟩ := Option.map_eq_some_iff.mp htake
    obtain ⟨rfl, rfl⟩ := Prod.mk.inj heq
    refine ⟨rfl, .inr (.inl ⟨(h.window.takeOldest? hfound).2, rfl, fun m hm => ?_⟩)⟩
    rw [hm] at hnone
    cases hnone
  case h_3 hnone =>
    obtain ⟨⟨found, main⟩, hfound, heq⟩ := Option.map_eq_some_iff.mp htake
    obtain ⟨rfl, rfl⟩ := Prod.mk.inj heq
    exact ⟨rfl, .inr (.inr ⟨List.head?_eq_none_iff.mp hnone, rfl, (h.main.takeOldest? hfound).2⟩)⟩

/-- A call that moves no key to main touches the key that it names. -/
theorem touched_of_subset {call : Call} (hsub : (a.apply call).main.toList ⊆ a.main.toList) :
    a.touched call = call.touched?.toList := by
  rw [touched, List.filter_eq_nil_iff.mpr, List.append_nil]
  intro k hk
  simpa using hsub hk

theorem touched_of_append {call : Call} {ms : List Key}
    (hmain : (a.apply call).main.toList = ms ++ [k]) (hsub : ms ⊆ a.main.toList)
    (hk : k ∉ a.main.toList) : a.touched call = call.touched?.toList ++ [k] := by
  rw [touched, hmain, List.filter_append, List.filter_eq_nil_iff.mpr, List.nil_append]
  · simp [hk]
  · intro m hm
    simpa using hsub hm

theorem WellFormed.touched_used (h : a.WellFormed) (k : Key) : a.touched (.used k) = [k] := by
  refine touched_of_subset ?_
  rw [apply]
  unfold Admission.use
  dsimp only
  split
  · exact List.Subset.refl _
  · split
    case isTrue hmain => exact (h.main.touch_perm_of_mem (h.main.contains_iff.mp hmain)).subset
    case isFalse => exact List.Subset.refl _

theorem WellFormed.touched_removed (h : a.WellFormed) (k : Key) : a.touched (.removed k) = [] := by
  refine touched_of_subset ?_
  rw [apply, Admission.erase, h.main.toList_erase]
  exact List.erase_subset

theorem Follows.inserted (hf : a.Follows l) (h : a.WellFormed)
    (hk : k ∉ a.window.toList ++ a.main.toList) :
    (a.add k).Follows (l ++ a.touched (.inserted k)) := by
  rw [List.mem_append, not_or] at hk
  have hwindow := h.window.inOrder_touch hf.window k
  have hmain := hf.main.append_of_not_mem hk.2
  rw [h.window.toList_touch_of_not_mem hk.1] at hwindow
  obtain ⟨-, ⟨-, hlist, hsame⟩ | ⟨-, oldest, hlist, hmoved⟩⟩ := h.add_cases hk.1
  · have htouched : a.touched (.inserted k) = [k] := by
      refine touched_of_subset ?_
      rw [apply, hsame]
      exact List.Subset.refl _
    rw [htouched]
    exact ⟨hlist ▸ hwindow, hsame ▸ hmain⟩
  · -- The oldest of the window is touched after the key that comes, as the newest of main.
    have hnodup : (a.window.toList ++ [k]).Nodup := by
      rw [← h.window.toList_touch_of_not_mem hk.1]
      exact (h.window.touch k).nodup_toList
    have hnew : oldest ∉ a.main.toList := by
      have hmem : oldest ∈ a.window.toList ++ [k] := hlist ▸ List.mem_cons_self
      rcases List.mem_append.mp hmem with hold | hold
      · exact h.not_mem_main hold
      · rw [List.mem_singleton.mp hold]
        exact hk.2
    have htouched : a.touched (.inserted k) = [k] ++ [oldest] := by
      refine touched_of_append ?_ (List.Subset.refl _) hnew
      rw [apply, hmoved, h.main.toList_touch_of_not_mem hnew]
    rw [hlist] at hwindow hnodup
    rw [htouched, ← List.append_assoc]
    refine ⟨?_, ?_⟩
    · exact (hwindow.sublist (List.sublist_cons_self oldest _)).append_of_not_mem
        (List.nodup_cons.mp hnodup).1
    · rw [hmoved]
      exact h.main.inOrder_touch hmain oldest

theorem Follows.used (hf : a.Follows l) (h : a.WellFormed) (k : Key) : (a.use k).Follows (l ++ [k]) := by
  unfold Admission.use
  dsimp only
  split
  case isTrue hwindow =>
    have hmain := h.not_mem_main (h.window.contains_iff.mp hwindow)
    exact ⟨h.window.inOrder_touch hf.window k, hf.main.append_of_not_mem hmain⟩
  case isFalse hwindow =>
    have hwindow := hf.window.append_of_not_mem (mt h.window.contains_iff.mpr hwindow)
    split
    case isTrue => exact ⟨hwindow, h.main.inOrder_touch hf.main k⟩
    case isFalse hmain =>
      exact ⟨hwindow, hf.main.append_of_not_mem (mt h.main.contains_iff.mpr hmain)⟩

theorem Follows.removed (hf : a.Follows l) (h : a.WellFormed) (k : Key) : (a.erase k).Follows l :=
  ⟨h.window.inOrder_erase hf.window k, h.main.inOrder_erase hf.main k⟩

/-- If the oldest key of the window is admitted to main, that is a touch of it. -/
theorem Follows.victim (hf : a.Follows l) (h : a.WellFormed) {draw : Nat}
    (htake : a.take? = some (k, rest)) : rest.Follows (l ++ a.touched (.victim draw)) := by
  have hrest : a.apply (.victim draw) = rest := by
    rw [apply, htake]
    rfl
  have hwindow := hf.window
  have hmain := hf.main
  obtain ⟨-, ⟨oldest, hlist, -, -, hentered⟩ | ⟨hlist, hsame, -⟩ | ⟨-, hsame, hlist⟩⟩ :=
    h.take?_cases htake
  · have hnodup := h.nodup_window
    have hnew : oldest ∉ a.main.toList := h.not_mem_main (by rw [hlist]; exact List.mem_cons_self)
    have hothers := List.tail_sublist a.main.toList
    have htouched : a.touched (.victim draw) = [oldest] :=
      touched_of_append (hrest ▸ hentered) hothers.subset hnew
    have hmoved := (hmain.sublist hothers).touch (h.nodup_main.sublist hothers) oldest
    rw [List.erase_of_not_mem fun hmem => hnew (hothers.subset hmem)] at hmoved
    rw [hlist] at hwindow hnodup
    rw [htouched]
    refine ⟨?_, hentered ▸ hmoved⟩
    exact (hwindow.sublist (List.sublist_cons_self oldest _)).append_of_not_mem
      (List.nodup_cons.mp hnodup).1
  · have htouched : a.touched (.victim draw) = [] := by
      refine touched_of_subset ?_
      rw [hrest, hsame]
      exact List.Subset.refl _
    rw [hlist] at hwindow
    rw [htouched, List.append_nil]
    exact ⟨hwindow.sublist (List.sublist_cons_self k _), hsame ▸ hmain⟩
  · have htouched : a.touched (.victim draw) = [] := by
      refine touched_of_subset ?_
      rw [hrest, hlist]
      exact List.subset_cons_self k _
    rw [hlist] at hmain
    rw [htouched, List.append_nil]
    exact ⟨hsame ▸ hwindow, hmain.sublist (List.sublist_cons_self k _)⟩

theorem Bounded.add (hb : a.Bounded capacity) (h : a.WellFormed)
    (hk : k ∉ a.window.toList ++ a.main.toList) : (a.add k).Bounded capacity := by
  have hsize := hb.window
  obtain ⟨hsame, hlists⟩ := h.add_cases fun hmem => hk (List.mem_append_left _ hmem)
  refine ⟨hsame.trans hb.windowCapacity, ?_⟩
  rw [hsame, ← Recency.length_toList]
  rcases hlists with ⟨hroom, hlist, -⟩ | ⟨hover, oldest, hlist, -⟩
  · rw [hlist, List.length_append, Recency.length_toList, List.length_singleton]
    omega
  · have hlength : (a.add k).window.size = a.window.size := by
      simpa using (congrArg List.length hlist).symm
    rw [Recency.length_toList]
    omega

/-- The share of the window is one key at least, so a key that comes stays there at first. -/
theorem WellFormed.window_add_ne_nil (h : a.WellFormed) (hb : a.Bounded capacity)
    (hk : k ∉ a.window.toList ++ a.main.toList) : (a.add k).window.toList ≠ [] := by
  have hpos : 1 ≤ a.windowCapacity := by
    rw [hb.windowCapacity]
    exact Nat.le_max_left _ _
  obtain ⟨-, ⟨-, hlist, -⟩ | ⟨hover, oldest, hlist, -⟩⟩ :=
    h.add_cases fun hmem => hk (List.mem_append_left _ hmem)
  · simp [hlist]
  · have hlength : (a.add k).window.size = a.window.size := by
      simpa using (congrArg List.length hlist).symm
    rw [ne_eq, ← List.length_eq_zero_iff, Recency.length_toList]
    omega

theorem WellFormed.window_use_perm (h : a.WellFormed) (k : Key) :
    (a.use k).window.toList.Perm a.window.toList := by
  unfold Admission.use
  dsimp only
  split
  case isTrue hwindow => exact h.window.touch_perm_of_mem (h.window.contains_iff.mp hwindow)
  case isFalse => split <;> exact .refl _

theorem Bounded.use (hb : a.Bounded capacity) (h : a.WellFormed) (k : Key) :
    (a.use k).Bounded capacity := by
  have hsame : (a.use k).windowCapacity = a.windowCapacity := by
    unfold Admission.use
    dsimp only
    split
    · rfl
    · split <;> rfl
  refine ⟨hsame.trans hb.windowCapacity, ?_⟩
  rw [hsame, ← Recency.length_toList, (h.window_use_perm k).length_eq, Recency.length_toList]
  exact hb.window

theorem Bounded.erase (hb : a.Bounded capacity) (h : a.WellFormed) (k : Key) :
    (a.erase k).Bounded capacity :=
  ⟨hb.windowCapacity, Nat.le_trans (h.window.size_erase_le k) hb.window⟩

theorem Bounded.take? (hb : a.Bounded capacity) (h : a.WellFormed)
    (htake : a.take? = some (k, rest)) : rest.Bounded capacity := by
  have hsize := hb.window
  rw [← Recency.length_toList] at hsize
  obtain ⟨hcapacity, ⟨oldest, hlist, -⟩ | ⟨hlist, -⟩ | ⟨-, hsame, -⟩⟩ := h.take?_cases htake
  · rw [hlist, List.length_cons, Recency.length_toList, ← hcapacity] at hsize
    exact ⟨hcapacity.trans hb.windowCapacity, by omega⟩
  · rw [hlist, List.length_cons, Recency.length_toList, ← hcapacity] at hsize
    exact ⟨hcapacity.trans hb.windowCapacity, by omega⟩
  · exact ⟨hcapacity.trans hb.windowCapacity, hsame ▸ hcapacity ▸ hb.window⟩

theorem Bounded.clear (hb : a.Bounded capacity) : a.clear.Bounded capacity := by
  refine ⟨hb.windowCapacity, ?_⟩
  rw [← Recency.length_toList]
  simp [Admission.clear]

theorem follows_clear (a : Admission) (l : List Key) : a.clear.Follows l := by
  constructor <;> simp [clear, InOrder.nil]

/-- What is known of the window and main after calls that have touched these keys. -/
structure Invariant (capacity : Nat) (l : List Key) (a : Admission) : Prop where
  wellFormed : a.WellFormed
  bounded : a.Bounded capacity
  follows : a.Follows l

theorem invariant_ofCapacity (hash : RowHash) (capacity : Nat) :
    (ofCapacity hash capacity).Invariant capacity [] :=
  ⟨wellFormed_ofCapacity hash capacity, bounded_ofCapacity hash capacity,
    follows_ofCapacity hash capacity⟩

theorem Invariant.apply {call : Call} (h : a.Invariant capacity l)
    (hcall : (Policy.tinyLfu a).Admits call) :
    (a.apply call).Invariant capacity (l ++ a.touched call) := by
  obtain ⟨hwf, hb, hf⟩ := h
  cases call with
  | inserted k => exact ⟨(hwf.add hcall).1, hb.add hwf hcall, hf.inserted hwf hcall⟩
  | used k =>
    rw [hwf.touched_used]
    exact ⟨(hwf.use k).1, hb.use hwf k, hf.used hwf k⟩
  | removed k =>
    rw [hwf.touched_removed, List.append_nil]
    exact ⟨(hwf.erase k).1, hb.erase hwf k, hf.removed hwf k⟩
  | victim draw =>
    cases htake : a.take? with
    | none =>
      have hsame : a.apply (.victim draw) = a := by
        rw [Admission.apply, htake]
        rfl
      have htouched : a.touched (.victim draw) = [] :=
        touched_of_subset (hsame.symm ▸ List.Subset.refl _)
      rw [hsame, htouched, List.append_nil]
      exact ⟨hwf, hb, hf⟩
    | some taken =>
      have hrest : a.apply (.victim draw) = taken.2 := by
        rw [Admission.apply, htake]
        rfl
      rw [hrest]
      exact ⟨(hwf.take? htake).1, hb.take? hwf htake, hf.victim hwf htake⟩
  | cleared => exact ⟨wellFormed_clear a, hb.clear, follows_clear a _⟩

theorem applyAll_append (a : Admission) (calls calls' : List Call) :
    a.applyAll (calls ++ calls') = (a.applyAll calls).applyAll calls' :=
  List.foldl_append

theorem Invariant.applyAll {calls : List Call} (h : a.Invariant capacity l)
    (hcalls : (Policy.tinyLfu a).AdmitsAll calls) :
    (a.applyAll calls).Invariant capacity (l ++ a.touches calls) := by
  induction calls generalizing a l with
  | nil => rwa [touches, List.append_nil]
  | cons call calls ih =>
    obtain ⟨hcall, hcalls⟩ := hcalls
    rw [tinyLfu_apply] at hcalls
    rw [touches, ← List.append_assoc]
    exact ih (h.apply hcall) hcalls

/-- A new key that takes the place of the one that goes, if the window has keys. The oldest of the window and
the oldest of main compete, and the new key finds room in the window that the first of them has left. -/
theorem WellFormed.contest (h : a.WellFormed) (hb : a.Bounded capacity) {victim : Key}
    (hne : a.window.toList ≠ []) (htake : a.take? = some (victim, rest))
    (hk : k ∉ rest.window.toList) :
    ∃ oldest, a.window.toList.head? = some oldest ∧
      (rest.add k).window.toList = a.window.toList.tail ++ [k] ∧
      (a.main.toList.head? = some victim ∧ a.sketch.estimate victim < a.sketch.estimate oldest ∧
          (rest.add k).main.toList = a.main.toList.tail ++ [oldest] ∨
        victim = oldest ∧ (rest.add k).main.toList = a.main.toList ∧
          ∀ resident, a.main.toList.head? = some resident →
            a.sketch.estimate oldest ≤ a.sketch.estimate resident) := by
  have hsize := hb.window
  have hrest := (h.take? htake).1
  have hadd : rest.window.size < rest.windowCapacity →
      (rest.add k).window.toList = rest.window.toList ++ [k] ∧ (rest.add k).main = rest.main := by
    intro hroom
    obtain ⟨-, ⟨-, hwindow, hmain⟩ | ⟨hover, -⟩⟩ := hrest.add_cases hk
    · exact ⟨hwindow, hmain⟩
    · omega
  rw [← Recency.length_toList] at hsize
  obtain ⟨hsame, ⟨oldest, hlist, hfirst, hlt, hentered⟩ | ⟨hlist, hkept, hle⟩ | ⟨hnil, -⟩⟩ :=
    h.take?_cases htake
  · rw [hlist, List.length_cons, Recency.length_toList, ← hsame] at hsize
    obtain ⟨hwindow, hmain⟩ := hadd hsize
    exact ⟨oldest, by simp [hlist], by simp [hlist, hwindow], .inl ⟨hfirst, hlt, hmain ▸ hentered⟩⟩
  · rw [hlist, List.length_cons, Recency.length_toList, ← hsame] at hsize
    obtain ⟨hwindow, hmain⟩ := hadd hsize
    refine ⟨victim, by simp [hlist], by simp [hlist, hwindow], .inr ⟨rfl, ?_, hle⟩⟩
    rw [hmain, hkept]
  · exact absurd hnil hne

end Admission

namespace Policy

/-- The bookkeeping of the rule TINYLFU, if it is that rule. -/
def admission? : Policy → Option Admission
  | tinyLfu a => some a
  | _ => .none

theorem admission?_eq_some_iff {p : Policy} {a : Admission} : p.admission? = some a ↔ p = tinyLfu a := by
  cases p <;> simp [admission?]

end Policy

end CacheServer
