import CacheServer.Eviction.SipHash
import CacheServer.Proofs.Command.Grammar
import CacheServer.Proofs.Line.Quoted
import CacheServer.Proofs.Reply.Lookup
import CacheServer.Proofs.Store.Effect

/-!
What a line has stored, other lines read back. Any text without a double quote can be stored and asked for, and
looking it up, however often, changes nothing that a look-up finds.
-/

namespace CacheServer

open Line Text

namespace Command

variable {k v a b line : String} {command : Command}

/-- A line that stores a value under a key and leads a secondary key of each index to it. -/
def setLine (k v a b : String) : String :=
  " ".intercalate ["SET", quoted k, quoted v, "IDX1", quoted a, "IDX2", quoted b]

/-- The lines that ask for a value by its key, and by a secondary key of either index. -/
def readLines (k a b : String) : List String :=
  [" ".intercalate ["GET", quoted k], " ".intercalate ["GETIDX1", quoted a],
    " ".intercalate ["GETIDX2", quoted b]]

theorem ofLine_intercalate {parts ts : List String} (h : List.Forall₂ Shows parts ts)
    (hspells : Spells ts command) : ofLine (" ".intercalate parts) = .ok command :=
  ofLine_eq_ok_iff.mpr ⟨ts, tokens_intercalate h, hspells⟩

theorem ofLine_setLine (hk : '"' ∉ k.toList) (hv : '"' ∉ v.toList) (ha : '"' ∉ a.toList)
    (hb : '"' ∉ b.toList) (hkey : namesClause k = false) (hvalue : namesClause v = false)
    (hidx2 : sameWord a "IDX2" = false) : ofLine (setLine k v a b) = .ok (.set k v (some a) (some b)) := by
  have hset : IsWord "SET".toList := by decide
  have hone : IsWord "IDX1".toList := by decide
  have htwo : IsWord "IDX2".toList := by decide
  have hspells : Spells ["SET", k, v, "IDX1", a, "IDX2", b] (.set k v (some a) (some b)) :=
    .set (by decide) hkey hvalue (.oneTwo (by decide) hidx2 (by decide))
  refine ofLine_intercalate ?_ hspells
  exact .cons (.word hset) <| .cons (.quoted hk) <| .cons (.quoted hv) <| .cons (.word hone) <|
    .cons (.quoted ha) <| .cons (.word htwo) <| .cons (.quoted hb) .nil

/-- Each of the reading lines looks up one of the texts. -/
theorem exists_lookup_of_mem_readLines (hk : '"' ∉ k.toList) (ha : '"' ∉ a.toList) (hb : '"' ∉ b.toList)
    (hline : line ∈ readLines k a b) :
    ∃ command ∈ [Command.get k, .getBy .one a, .getBy .two b], ofLine line = .ok command ∧ command.IsLookup := by
  have hget : IsWord "GET".toList := by decide
  have hone : IsWord "GETIDX1".toList := by decide
  have htwo : IsWord "GETIDX2".toList := by decide
  simp only [readLines, List.mem_cons, List.not_mem_nil, or_false] at hline
  rcases hline with rfl | rfl | rfl
  · refine ⟨.get k, by simp, ?_, trivial⟩
    exact ofLine_intercalate (.cons (.word hget) (.cons (.quoted hk) .nil)) (.get (by decide))
  · refine ⟨.getBy .one a, by simp, ?_, trivial⟩
    exact ofLine_intercalate (.cons (.word hone) (.cons (.quoted ha) .nil)) (.getIdx1 (by decide))
  · refine ⟨.getBy .two b, by simp, ?_, trivial⟩
    exact ofLine_intercalate (.cons (.word htwo) (.cons (.quoted hb) .nil)) (.getIdx2 (by decide))

end Command

namespace Store

open Std

variable {s t : Store} {draw : Nat} {k : Key} {v : String} {secondary : List (Option Key)}
  {command command' : Command}

theorem getBy_fst (s : Store) (i : Index) (x : Key) :
    (s.getBy i x).1 = (s.index i)[x]?.bind fun k => (s.get k).1 := by
  rw [getBy]
  cases (s.index i)[x]? <;> rfl

/-- Stores with the same values and the same index entries find the same. -/
theorem found_congr (hvalue : ∀ k, (t.get k).1 = (s.get k).1) (hindex : ∀ i, t.index i = s.index i)
    (command : Command) : t.found command = s.found command := by
  cases command with
  | get k => exact hvalue k
  | getBy i x => simp only [found, getBy_fst, hindex, hvalue]
  | _ => rfl

theorem found_get (s : Store) (k : Key) (command : Command) : (s.get k).2.found command = s.found command := by
  refine found_congr (fun k' => ?_) (index_get s k) command
  rw [get_fst, get_fst, value_get]

/-- A look-up changes nothing that a look-up finds. -/
theorem found_run_of_lookup (s : Store) (draw : Nat) (hlookup : command.IsLookup) (command' : Command) :
    (s.run draw command).2.found command' = s.found command' := by
  cases command with
  | get k => exact found_get s k command'
  | getBy i x =>
    simp only [run]
    rw [getBy]
    split
    · rfl
    · exact found_get s _ command'
  | _ => cases hlookup

/-- Nor does a run of lines that look something up. -/
theorem found_serveAll_of_lookups {reads : List (Nat × String)}
    (hreads : ∀ r ∈ reads, ∃ command, Command.ofLine r.2 = .ok command ∧ command.IsLookup) (s : Store)
    (command : Command) :
    (s.serveAll (reads.map fun r => .line r.1 r.2)).found command = s.found command := by
  induction reads generalizing s with
  | nil => rfl
  | cons r reads ih =>
    obtain ⟨⟨lookup, hline, hlookup⟩, hreads⟩ := List.forall_mem_cons.mp hreads
    have hserve : s.serve (.line r.1 r.2) = (s.run r.1 lookup).2 := by
      rw [serve, execute_of_ok hline]
    rw [List.map_cons, serveAll, List.foldl_cons, hserve, ← serveAll, ih hreads,
      found_run_of_lookup s r.1 hlookup]

/-- What is put is found by its key and by the secondary keys that were given, whichever key had to go. -/
theorem WellFormed.found_of_put (hs : s.WellFormed) (hput : s.put draw k v secondary = .ok t) :
    t.found (.get k) = some v ∧ ∀ i x, i.among secondary = some x → t.found (.getBy i x) = some v := by
  have hhands := hs.handsOn_put hput
  have hk : k ∈ t.entries := by
    obtain ⟨-, rfl⟩ := put_eq_ok_iff.mp hput
    exact mem_write s draw k v
  have hvalue : (t.get k).1 = some v := by
    rw [hhands.value k hk]
    simp [Effect.value?]
  refine ⟨hvalue, fun i x hx => ?_⟩
  have hlink : (t.index i)[x]? = some k := by
    rw [hhands.link i x k hk]
    simp [Effect.target?, hx]
  rw [found, getBy_eq_get hlink, hvalue]

theorem execute_of_set {line : String} {one two : Option String}
    (hline : Command.ofLine line = .ok (.set k v one two)) (s : Store) (draw : Nat) :
    ∃ t, s.put draw k v [one, two] = .ok t ∧ s.execute draw line = (.ok, t) := by
  have hput : s.put draw k v [one, two] = .ok _ := put_eq_ok (Nat.le_refl 2)
  refine ⟨_, hput, ?_⟩
  rw [execute_of_ok hline]
  simp only [run, hput]

/-- In every store that a run reaches, the line that sets a value is answered with `OK`, and from then on the
value is the answer to each of the lines that ask for it, after any number of them in any order. -/
theorem set_value_is_read_back (hash : RowHash) {rule : EvictionRule} {capacity : Nat} (hcapacity : 1 ≤ capacity)
    (requests : List Request) (draw : Nat) {k v a b : String} (hk : '"' ∉ k.toList) (hv : '"' ∉ v.toList)
    (ha : '"' ∉ a.toList) (hb : '"' ∉ b.toList) (hkey : Command.namesClause k = false)
    (hvalue : Command.namesClause v = false) (hidx2 : sameWord a "IDX2" = false) :
    ∃ s₀, create hash rule capacity = .ok s₀ ∧
      let answered := (s₀.serveAll requests).execute draw (Command.setLine k v a b)
      answered.1 = .ok ∧
        ∀ reads : List (Nat × String), (∀ r ∈ reads, r.2 ∈ Command.readLines k a b) →
          ∀ draw', ∀ line ∈ Command.readLines k a b,
            ((answered.2.serveAll (reads.map fun r => .line r.1 r.2)).execute draw' line).1 = .text v := by
  refine ⟨_, create_eq_ok_iff.mpr ⟨.inr hcapacity, rfl⟩, ?_⟩
  have hs : ((fresh hash rule capacity).serveAll requests).WellFormed :=
    (wellFormed_fresh hash (.inr hcapacity)).serveAll requests
  obtain ⟨t, hput, hexecute⟩ := execute_of_set
    (Command.ofLine_setLine hk hv ha hb hkey hvalue hidx2) ((fresh hash rule capacity).serveAll requests) draw
  obtain ⟨hget, hgetBy⟩ := hs.found_of_put hput
  have hfound : ∀ command ∈ [Command.get k, .getBy .one a, .getBy .two b], t.found command = some v := by
    simp only [List.forall_mem_cons]
    exact ⟨hget, hgetBy .one a rfl, hgetBy .two b rfl, List.forall_mem_nil _⟩
  rw [hexecute]
  refine ⟨rfl, fun reads hreads draw' line hline => ?_⟩
  have hlookups : ∀ r ∈ reads, ∃ command, Command.ofLine r.2 = .ok command ∧ command.IsLookup := by
    intro r hr
    obtain ⟨command, -, hcommand⟩ := Command.exists_lookup_of_mem_readLines hk ha hb (hreads r hr)
    exact ⟨command, hcommand⟩
  obtain ⟨command, hmem, hcommand, hlookup⟩ := Command.exists_lookup_of_mem_readLines hk ha hb hline
  rw [execute_of_lookup hcommand hlookup, found_serveAll_of_lookups hlookups, hfound command hmem]
  rfl

theorem set_value_is_read_back_clauseNames :
    let k := "a key\r\n"
    let v := ""
    let a := "idx1"
    let b := "IDX2"
    let requests : List Request := [.line 0 "SET x 1 IDX1 idx1", .line 0 "SET y 2 IDX2 IDX2"]
    (1 ≤ 1 ∧ '"' ∉ k.toList ∧ '"' ∉ v.toList ∧ '"' ∉ a.toList ∧ '"' ∉ b.toList ∧
      Command.namesClause k = false ∧ Command.namesClause v = false ∧ sameWord a "IDX2" = false) ∧
      ∃ s₀, create SipHash.rowHash .twoQueues 1 = .ok s₀ ∧
        let answered := (s₀.serveAll requests).execute 0 (Command.setLine k v a b)
        answered.1 = .ok ∧
          ∀ reads : List (Nat × String), (∀ r ∈ reads, r.2 ∈ Command.readLines k a b) →
            ∀ draw', ∀ line ∈ Command.readLines k a b,
              ((answered.2.serveAll (reads.map fun r => .line r.1 r.2)).execute draw' line).1 = .text v := by
  intro k v a b requests
  have hcapacity : 1 ≤ 1 := Nat.le_refl 1
  have hk : '"' ∉ k.toList := by decide
  have hv : '"' ∉ v.toList := by decide
  have ha : '"' ∉ a.toList := by decide
  have hb : '"' ∉ b.toList := by decide
  have hkey : Command.namesClause k = false := by decide
  have hvalue : Command.namesClause v = false := by decide
  have hidx2 : sameWord a "IDX2" = false := by decide
  exact ⟨⟨hcapacity, hk, hv, ha, hb, hkey, hvalue, hidx2⟩,
    set_value_is_read_back SipHash.rowHash hcapacity requests 0 hk hv ha hb hkey hvalue hidx2⟩

end Store

end CacheServer
