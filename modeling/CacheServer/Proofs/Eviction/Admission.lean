import CacheServer.Eviction.Admission
import CacheServer.Proofs.Eviction.Recency

/-!
The window and the main list of admission by frequency. No key is in both, and only insertions and
removals change the keys of the two taken together.
-/

namespace CacheServer.Admission

variable {a rest : Admission} {k : Key}

/-- The window and the main list have no key in common. -/
structure WellFormed (a : Admission) : Prop where
  window : a.window.WellFormed
  main : a.main.WellFormed
  nodup : (a.window.toList ++ a.main.toList).Nodup

/-- A change that keeps the keys of the two lists together keeps them apart. -/
theorem WellFormed.of_perm {b : Admission} (h : a.WellFormed) (hwindow : b.window.WellFormed)
    (hmain : b.main.WellFormed)
    (hperm : (b.window.toList ++ b.main.toList).Perm (a.window.toList ++ a.main.toList)) :
    b.WellFormed :=
  ⟨hwindow, hmain, hperm.nodup_iff.mpr h.nodup⟩

theorem WellFormed.not_mem_main (h : a.WellFormed) (hk : k ∈ a.window.toList) : k ∉ a.main.toList :=
  fun hmain => List.disjoint_of_nodup_append h.nodup hk hmain

theorem wellFormed_ofCapacity (hash : RowHash) (capacity : Nat) :
    (ofCapacity hash capacity).WellFormed := by
  constructor <;> simp [ofCapacity, Recency.wellFormed_empty]

theorem wellFormed_clear (a : Admission) : a.clear.WellFormed := by
  constructor <;> simp [clear, Recency.wellFormed_clear]

theorem WellFormed.overflow (h : a.WellFormed) : a.overflow.WellFormed ∧
    (a.overflow.window.toList ++ a.overflow.main.toList).Perm
      (a.window.toList ++ a.main.toList) := by
  unfold Admission.overflow
  split
  case isFalse hroom => exact ⟨h, .refl _⟩
  case isTrue hover =>
    cases htake : a.window.takeOldest? with
    | none => exact ⟨h, .refl _⟩
    | some taken =>
      obtain ⟨k, window⟩ := taken
      obtain ⟨hwindow, hlist⟩ := h.window.takeOldest? htake
      have hk : k ∉ a.main.toList := h.not_mem_main (by simp [hlist])
      have hperm := perm_move_right (.of_eq hlist) (h.main.touch_perm hk)
      exact ⟨h.of_perm hwindow (h.main.touch k) hperm, hperm⟩

theorem WellFormed.add (h : a.WellFormed) (hk : k ∉ a.window.toList ++ a.main.toList) :
    (a.add k).WellFormed ∧ ((a.add k).window.toList ++ (a.add k).main.toList).Perm
      (k :: (a.window.toList ++ a.main.toList)) := by
  have hwindow : k ∉ a.window.toList := fun hmem => hk (List.mem_append_left _ hmem)
  have hadd : ((a.window.touch k).toList ++ a.main.toList).Perm
      (k :: (a.window.toList ++ a.main.toList)) :=
    (h.window.touch_perm hwindow).append_right _
  have hwf : WellFormed { a with sketch := a.sketch.add k, window := a.window.touch k } :=
    ⟨h.window.touch k, h.main, hadd.nodup_iff.mpr (List.nodup_cons.mpr ⟨hk, h.nodup⟩)⟩
  obtain ⟨hoverflow, hperm⟩ := hwf.overflow
  exact ⟨hoverflow, hperm.trans hadd⟩

theorem WellFormed.use (h : a.WellFormed) (k : Key) :
    (a.use k).WellFormed ∧ ((a.use k).window.toList ++ (a.use k).main.toList).Perm
      (a.window.toList ++ a.main.toList) := by
  unfold Admission.use
  dsimp only
  split
  case isTrue hwindow =>
    rw [h.window.contains_iff] at hwindow
    have hperm := (h.window.touch_perm_of_mem hwindow).append_right a.main.toList
    exact ⟨h.of_perm (h.window.touch k) h.main hperm, hperm⟩
  case isFalse hwindow =>
    split
    case isTrue hmain =>
      rw [h.main.contains_iff] at hmain
      have hperm := (h.main.touch_perm_of_mem hmain).append_left a.window.toList
      exact ⟨h.of_perm h.window (h.main.touch k) hperm, hperm⟩
    case isFalse hmain => exact ⟨⟨h.window, h.main, h.nodup⟩, .refl _⟩

theorem WellFormed.erase (h : a.WellFormed) (k : Key) :
    (a.erase k).WellFormed ∧ ((a.erase k).window.toList ++ (a.erase k).main.toList).Perm
      ((a.window.toList ++ a.main.toList).erase k) := by
  have hnodup := h.nodup.erase k
  rw [erase_append_of_nodup h.nodup, ← h.window.toList_erase, ← h.main.toList_erase] at hnodup ⊢
  exact ⟨⟨h.window.erase k, h.main.erase k, hnodup⟩, .refl _⟩

/-- If both lists have a candidate, the window loses its own: it goes, or it takes the place in main
of the one that goes. -/
theorem WellFormed.take?_of_both (h : a.WellFormed) {candidate resident : Key}
    (hcandidate : candidate ∈ a.window.toList) (hresident : resident ∈ a.main.toList) :
    (WellFormed { a with window := a.window.erase candidate } ∧
      (a.window.toList ++ a.main.toList).Perm
        (candidate :: ((a.window.erase candidate).toList ++ a.main.toList))) ∧
    (WellFormed { a with
        window := a.window.erase candidate, main := (a.main.erase resident).touch candidate } ∧
      (a.window.toList ++ a.main.toList).Perm (resident :: ((a.window.erase candidate).toList ++
        ((a.main.erase resident).touch candidate).toList))) := by
  have hwindow := h.window.erase_perm hcandidate
  have hmain := h.main.erase_perm hresident
  have hentered : candidate ∉ (a.main.erase resident).toList := by
    rw [h.main.toList_erase]
    exact fun hmem => h.not_mem_main hcandidate (List.mem_of_mem_erase hmem)
  have hleave : (a.window.toList ++ a.main.toList).Perm
      (candidate :: ((a.window.erase candidate).toList ++ a.main.toList)) :=
    hwindow.append_right _
  have henter : (a.window.toList ++ a.main.toList).Perm
      (resident :: ((a.window.erase candidate).toList ++
        ((a.main.erase resident).touch candidate).toList)) := by
    refine (hmain.append_left _).trans (List.perm_middle.trans (List.Perm.cons resident ?_))
    exact (perm_move_right hwindow ((h.main.erase resident).touch_perm hentered)).symm
  refine ⟨⟨⟨h.window.erase candidate, h.main, ?_⟩, hleave⟩,
    ⟨h.window.erase candidate, (h.main.erase resident).touch candidate, ?_⟩, henter⟩
  · exact (List.nodup_cons.mp (hleave.nodup_iff.mp h.nodup)).2
  · exact (List.nodup_cons.mp (henter.nodup_iff.mp h.nodup)).2

theorem WellFormed.take? (h : a.WellFormed) (htake : a.take? = some (k, rest)) :
    rest.WellFormed ∧ (a.window.toList ++ a.main.toList).Perm
      (k :: (rest.window.toList ++ rest.main.toList)) := by
  have hnodup := h.nodup
  unfold Admission.take? at htake
  rw [a.window.oldest?_eq_head?, a.main.oldest?_eq_head?] at htake
  split at htake
  case h_1 candidate resident hcandidate hresident =>
    obtain ⟨hleave, henter⟩ := h.take?_of_both (List.mem_of_mem_head? hcandidate)
      (List.mem_of_mem_head? hresident)
    dsimp only at htake
    split at htake
    · obtain ⟨rfl, rfl⟩ := Prod.mk.inj (Option.some.inj htake)
      exact henter
    · obtain ⟨rfl, rfl⟩ := Prod.mk.inj (Option.some.inj htake)
      exact hleave
  case h_2 =>
    obtain ⟨⟨found, window⟩, hfound, heq⟩ := Option.map_eq_some_iff.mp htake
    obtain ⟨rfl, rfl⟩ := Prod.mk.inj heq
    obtain ⟨hwindow, hlist⟩ := h.window.takeOldest? hfound
    rw [hlist] at hnodup ⊢
    exact ⟨⟨hwindow, h.main, (List.nodup_cons.mp hnodup).2⟩, .refl _⟩
  case h_3 =>
    obtain ⟨⟨found, main⟩, hfound, heq⟩ := Option.map_eq_some_iff.mp htake
    obtain ⟨rfl, rfl⟩ := Prod.mk.inj heq
    obtain ⟨hmain, hlist⟩ := h.main.takeOldest? hfound
    rw [hlist] at hnodup ⊢
    exact ⟨⟨h.window, hmain, (List.nodup_cons.mp (List.nodup_middle.mp hnodup)).2⟩,
      List.perm_middle⟩

theorem take?_eq_none_iff : a.take? = none ↔ a.window.toList ++ a.main.toList = [] := by
  unfold Admission.take?
  rw [a.window.oldest?_eq_head?, a.main.oldest?_eq_head?, List.append_eq_nil_iff]
  split
  case h_1 candidate resident hcandidate hresident =>
    have := List.ne_nil_of_mem (List.mem_of_mem_head? hcandidate)
    dsimp only
    split <;> simp [this]
  case h_2 candidate hcandidate hmain =>
    have := List.ne_nil_of_mem (List.mem_of_mem_head? hcandidate)
    rw [Option.map_eq_none_iff, Recency.takeOldest?_eq_none_iff]
    simp [this]
  case h_3 hwindow =>
    rw [Option.map_eq_none_iff, Recency.takeOldest?_eq_none_iff]
    simp [List.head?_eq_none_iff.mp hwindow]

end CacheServer.Admission
