import Mathlib.Data.List.Induction
import BestParse.Search.BestFirst.Frontier
import BestParse.Proofs.Grammar.WellFormed

/-!
# What frontiers find

A ghost table is determined by the slots that were registered, in their order: under
every key it holds the halves that these slots leave (`awaitingRight_ofSlots`,
`awaitingLeft_ofSlots`).  So a frontier *tracks* a list of slots, and a scan frontier
tracks any list.

Around a slot a frontier finds only places inside the sentence (`inside_of_mem_places`),
every place where a tracked slot is the other child (`mem_places_of_left`,
`mem_places_of_right`), and not too many (`length_places_le`).
-/

namespace BestParse

variable {g : Grammar} {n : Nat}

namespace GhostTable

/-! ## Filing ghosts -/

theorem getD_file (table : PairMap (Array Ghost)) (symbol : NonTerminal) (position : Nat)
    (ghost : Ghost) (key : Nat × Nat) :
    ((file table symbol position ghost).getD key #[]).toList =
      (table.getD key #[]).toList ++ if key = (symbol, position) then [ghost] else [] := by
  unfold file
  rw [Std.TreeMap.getD_insert]
  by_cases hkey : key = (symbol, position)
  · subst hkey
    rw [if_pos (Std.LawfulEqCmp.compare_eq_iff_eq.2 rfl), if_pos rfl, Array.toList_push]
  · rw [if_neg hkey, if_neg, List.append_nil]
    intro heq
    exact hkey (Std.LawfulEqCmp.compare_eq_iff_eq.1 heq).symm

/-- The ghosts of a slot on one side, all filed at one position. -/
theorem getD_fileAll (child : ProductionId → Option NonTerminal) (position anchor : Nat)
    (key : Nat × Nat) :
    ∀ (ids : List ProductionId) (table : PairMap (Array Ghost)),
      ((ids.foldl (fun ghosts id =>
          match child id with
          | some symbol => file ghosts symbol position ⟨id, anchor⟩
          | none => ghosts) table).getD key #[]).toList =
        (table.getD key #[]).toList ++
          if position = key.2 then
            (ids.filter fun id => child id = some key.1).map fun id => ⟨id, anchor⟩
          else []
  | [], table => by simp
  | id :: ids, table => by
      rw [List.foldl_cons, getD_fileAll child position anchor key ids]
      obtain ⟨symbol, spot⟩ := key
      cases hchild : child id with
      | none => simp [hchild]
      | some symbol' =>
          dsimp only
          rw [getD_file]
          by_cases hposition : position = spot
          · by_cases hsymbol : symbol' = symbol
            · simp [hchild, hposition, hsymbol]
            · simp [hchild, hposition, hsymbol, Ne.symm hsymbol]
          · simp [hposition, Ne.symm hposition]

/-- The left halves a slot leaves for a right child and the position where it begins. -/
def leftHalves (g : Grammar) (n : Nat) (key : Nat × Nat) (x : Slot) : List Ghost :=
  if x.stop = key.2 ∧ x.stop < n then
    ((g.binaryWithLeft x.symbol).filter fun id =>
      (g.production id).expansion.right? = some key.1).map fun id => ⟨id, x.start⟩
  else []

/-- The right halves a slot leaves for a left child and the position where it ends. -/
def rightHalves (g : Grammar) (key : Nat × Nat) (x : Slot) : List Ghost :=
  if x.start = key.2 ∧ 0 < x.start then
    ((g.binaryWithRight x.symbol).filter fun id =>
      (g.production id).expansion.left? = some key.1).map fun id => ⟨id, x.stop⟩
  else []

theorem size_register (g : Grammar) (table : GhostTable) (x : Slot) :
    (table.register g x).size = table.size := by
  unfold register
  split <;> rfl

theorem awaitingRight_register (g : Grammar) (table : GhostTable) (x : Slot) (key : Nat × Nat) :
    ((table.register g x).awaitingRight.getD key #[]).toList =
      (table.awaitingRight.getD key #[]).toList ++ leftHalves g table.size key x := by
  unfold register leftHalves
  split
  · next hwhole => simp [hwhole.2]
  · dsimp only
    by_cases hstop : x.stop < table.size
    · rw [if_pos hstop]
      refine (getD_fileAll _ _ _ _ _ _).trans ?_
      simp only [hstop, and_true]
    · rw [if_neg hstop, if_neg (fun h => hstop h.2), List.append_nil]

theorem awaitingLeft_register (g : Grammar) (table : GhostTable) (x : Slot) (key : Nat × Nat) :
    ((table.register g x).awaitingLeft.getD key #[]).toList =
      (table.awaitingLeft.getD key #[]).toList ++ rightHalves g key x := by
  unfold register rightHalves
  split
  · next hwhole => simp [hwhole.1]
  · dsimp only
    by_cases hstart : 0 < x.start
    · rw [if_pos hstart]
      refine (getD_fileAll _ _ _ _ _ _).trans ?_
      simp only [hstart, and_true]
    · rw [if_neg hstart, if_neg (fun h => hstart h.2), List.append_nil]

/-! ## The table of some slots -/

/-- The table after some slots were registered. -/
def ofSlots (g : Grammar) (n : Nat) (slots : List Slot) : GhostTable :=
  slots.foldl (register g) { size := n }

theorem ofSlots_append (g : Grammar) (n : Nat) (slots : List Slot) (x : Slot) :
    ofSlots g n (slots ++ [x]) = (ofSlots g n slots).register g x := by
  rw [ofSlots, List.foldl_append]
  rfl

theorem size_ofSlots (g : Grammar) (n : Nat) (slots : List Slot) :
    (ofSlots g n slots).size = n := by
  induction slots using List.reverseRecOn with
  | nil => rfl
  | append_singleton slots x ih => rw [ofSlots_append, size_register, ih]

theorem awaitingRight_ofSlots (g : Grammar) (n : Nat) (slots : List Slot) (key : Nat × Nat) :
    ((ofSlots g n slots).awaitingRight.getD key #[]).toList =
      slots.flatMap (leftHalves g n key) := by
  induction slots using List.reverseRecOn with
  | nil => simp [ofSlots]
  | append_singleton slots x ih =>
      rw [ofSlots_append, awaitingRight_register, ih, size_ofSlots, List.flatMap_append,
        List.flatMap_singleton]

theorem awaitingLeft_ofSlots (g : Grammar) (n : Nat) (slots : List Slot) (key : Nat × Nat) :
    ((ofSlots g n slots).awaitingLeft.getD key #[]).toList = slots.flatMap (rightHalves g key) := by
  induction slots using List.reverseRecOn with
  | nil => simp [ofSlots]
  | append_singleton slots x ih =>
      rw [ofSlots_append, awaitingLeft_register, ih, List.flatMap_append, List.flatMap_singleton]

theorem mem_leftHalves (hg : g.WellFormed) {symbol position : Nat} {x : Slot} {ghost : Ghost} :
    ghost ∈ leftHalves g n (symbol, position) x ↔
      x.stop = position ∧ x.stop < n ∧ ghost.production < g.numProductions ∧
        (g.production ghost.production).expansion = .binary x.symbol symbol ∧
        ghost.anchor = x.start := by
  unfold leftHalves
  split
  · next hat =>
    simp only [List.mem_map, List.mem_filter, hg.mem_binaryWithLeft, decide_eq_true_iff]
    constructor
    · rintro ⟨id, ⟨⟨hid, r, hexp⟩, hright⟩, rfl⟩
      rw [hexp] at hright
      cases hright
      exact ⟨hat.1, hat.2, hid, hexp, rfl⟩
    · rintro ⟨-, -, hid, hexp, hanchor⟩
      refine ⟨ghost.production, ⟨⟨hid, symbol, hexp⟩, ?_⟩, ?_⟩
      · rw [hexp]
        rfl
      · rw [← hanchor]
  · next hat =>
    refine ⟨nofun, ?_⟩
    rintro ⟨hstop, hlt, -⟩
    exact absurd ⟨hstop, hlt⟩ hat

theorem mem_rightHalves (hg : g.WellFormed) {symbol position : Nat} {x : Slot} {ghost : Ghost} :
    ghost ∈ rightHalves g (symbol, position) x ↔
      x.start = position ∧ 0 < x.start ∧ ghost.production < g.numProductions ∧
        (g.production ghost.production).expansion = .binary symbol x.symbol ∧
        ghost.anchor = x.stop := by
  unfold rightHalves
  split
  · next hat =>
    simp only [List.mem_map, List.mem_filter, hg.mem_binaryWithRight, decide_eq_true_iff]
    constructor
    · rintro ⟨id, ⟨⟨hid, l, hexp⟩, hleft⟩, rfl⟩
      rw [hexp] at hleft
      cases hleft
      exact ⟨hat.1, hat.2, hid, hexp, rfl⟩
    · rintro ⟨-, -, hid, hexp, hanchor⟩
      refine ⟨ghost.production, ⟨⟨hid, symbol, hexp⟩, ?_⟩, ?_⟩
      · rw [hexp]
        rfl
      · rw [← hanchor]
  · next hat =>
    refine ⟨nofun, ?_⟩
    rintro ⟨hstart, hlt, -⟩
    exact absurd ⟨hstart, hlt⟩ hat

end GhostTable

/-! ## Places around a slot -/

/-- The place is a production over a split span of a sentence. -/
structure Place.Inside (g : Grammar) (n : Nat) (p : Place) : Prop where
  production_lt : p.production < g.numProductions
  start_lt : p.start < p.mid
  mid_lt : p.mid < p.stop
  stop_le : p.stop ≤ n

namespace Frontier

/-- What the frontier remembers is that some slots were registered. -/
def Tracks (g : Grammar) (n : Nat) (slots : List Slot) : Frontier → Prop
  | .scan => True
  | .ghost table => table = GhostTable.ofSlots g n slots

theorem tracks_reset (f : Frontier) (g : Grammar) (n : Nat) : (f.reset n).Tracks g n [] := by
  cases f with
  | scan => trivial
  | ghost table => rfl

variable {f : Frontier} {slots : List Slot} {x : Slot}

theorem Tracks.register (h : f.Tracks g n slots) (x : Slot) :
    (f.register g x).Tracks g n (slots ++ [x]) := by
  cases f with
  | scan => trivial
  | ghost table =>
      rw [Tracks] at h
      subst h
      exact (GhostTable.ofSlots_append g n slots x).symm

theorem mem_places_scan (hg : g.WellFormed) (hx : IsSpan n x.start x.stop) {p : Place} :
    p ∈ scanPlaces g n x ↔
      (p.production < g.numProductions ∧
        (∃ r, (g.production p.production).expansion = .binary x.symbol r) ∧
        p.start = x.start ∧ p.mid = x.stop ∧ x.stop < p.stop ∧ p.stop ≤ n) ∨
      (p.production < g.numProductions ∧
        (∃ l, (g.production p.production).expansion = .binary l x.symbol) ∧
        p.start < x.start ∧ p.mid = x.start ∧ p.stop = x.stop) := by
  obtain ⟨hlt, hle⟩ := hx
  simp only [scanPlaces, List.mem_append, List.mem_flatMap, List.mem_map, List.mem_range'_1,
    List.mem_range, hg.mem_binaryWithLeft, hg.mem_binaryWithRight]
  constructor
  · rintro (⟨stop, hstop, id, ⟨hid, hexp⟩, rfl⟩ | ⟨start, hstart, id, ⟨hid, hexp⟩, rfl⟩)
    · exact Or.inl ⟨hid, hexp, rfl, rfl, by dsimp only; omega, by dsimp only; omega⟩
    · exact Or.inr ⟨hid, hexp, hstart, rfl, rfl⟩
  · obtain ⟨id, start, mid, stop⟩ := p
    rintro (⟨hid, hexp, hstart, hmid, hlt', hle'⟩ | ⟨hid, hexp, hlt', hmid, hstop⟩)
    · dsimp only at *
      subst hstart hmid
      exact Or.inl ⟨stop, by omega, id, ⟨hid, hexp⟩, rfl⟩
    · dsimp only at *
      subst hmid hstop
      exact Or.inr ⟨start, hlt', id, ⟨hid, hexp⟩, rfl⟩

theorem mem_places_ghost (hg : g.WellFormed) {p : Place} :
    p ∈ (GhostTable.ofSlots g n slots).places x ↔
      (∃ y ∈ slots, y.stop = x.start ∧ y.stop < n ∧ p.production < g.numProductions ∧
        (g.production p.production).expansion = .binary y.symbol x.symbol ∧
        p.start = y.start ∧ p.mid = x.start ∧ p.stop = x.stop) ∨
      (∃ y ∈ slots, y.start = x.stop ∧ 0 < y.start ∧ p.production < g.numProductions ∧
        (g.production p.production).expansion = .binary x.symbol y.symbol ∧
        p.start = x.start ∧ p.mid = x.stop ∧ p.stop = y.stop) := by
  simp only [GhostTable.places, List.mem_append, List.mem_map, GhostTable.awaitingRight_ofSlots,
    GhostTable.awaitingLeft_ofSlots, List.mem_flatMap, GhostTable.mem_leftHalves hg,
    GhostTable.mem_rightHalves hg]
  constructor
  · rintro (⟨ghost, ⟨y, hy, hat, hlt, hid, hexp, hanchor⟩, rfl⟩ |
      ⟨ghost, ⟨y, hy, hat, hlt, hid, hexp, hanchor⟩, rfl⟩)
    · exact Or.inl ⟨y, hy, hat, hlt, hid, hexp, hanchor, rfl, rfl⟩
    · exact Or.inr ⟨y, hy, hat, hlt, hid, hexp, rfl, rfl, hanchor⟩
  · obtain ⟨id, start, mid, stop⟩ := p
    rintro (⟨y, hy, hat, hlt, hid, hexp, hstart, hmid, hstop⟩ |
      ⟨y, hy, hat, hlt, hid, hexp, hstart, hmid, hstop⟩)
    · dsimp only at *
      subst hstart hmid hstop
      exact Or.inl ⟨⟨id, y.start⟩, ⟨y, hy, hat, hlt, hid, hexp, rfl⟩, rfl⟩
    · dsimp only at *
      subst hstart hmid hstop
      exact Or.inr ⟨⟨id, y.stop⟩, ⟨y, hy, hat, hlt, hid, hexp, rfl⟩, rfl⟩

theorem inside_of_mem_places (hg : g.WellFormed) (h : f.Tracks g n slots)
    (hslots : ∀ y ∈ slots, IsSpan n y.start y.stop) (hx : IsSpan n x.start x.stop) {p : Place}
    (hp : p ∈ f.places g n x) : p.Inside g n := by
  have hx' := hx
  obtain ⟨hlt, hle⟩ := hx'
  cases f with
  | scan =>
      rcases (mem_places_scan hg hx).1 hp with
        ⟨hid, -, hstart, hmid, hlt', hle'⟩ | ⟨hid, -, hlt', hmid, hstop⟩
      · exact ⟨hid, by omega, by omega, hle'⟩
      · exact ⟨hid, by omega, by omega, by omega⟩
  | ghost table =>
      rw [Tracks] at h
      subst h
      rcases (mem_places_ghost hg).1 hp with
        ⟨y, hy, hat, -, hid, -, hstart, hmid, hstop⟩ | ⟨y, hy, hat, -, hid, -, hstart, hmid, hstop⟩
      · obtain ⟨hlty, hley⟩ := hslots y hy
        exact ⟨hid, by omega, by omega, by omega⟩
      · obtain ⟨hlty, hley⟩ := hslots y hy
        exact ⟨hid, by omega, by omega, by omega⟩

/-- At a place around a slot, the slot is one of the children. -/
theorem child_of_mem_places (hg : g.WellFormed) (h : f.Tracks g n slots)
    (hx : IsSpan n x.start x.stop) {p : Place} (hp : p ∈ f.places g n x) :
    (∃ r, (g.production p.production).expansion = .binary x.symbol r ∧ p.start = x.start ∧
      p.mid = x.stop) ∨
    ∃ l, (g.production p.production).expansion = .binary l x.symbol ∧ p.mid = x.start ∧
      p.stop = x.stop := by
  cases f with
  | scan =>
      rcases (mem_places_scan hg hx).1 hp with
        ⟨-, ⟨r, hexp⟩, hstart, hmid, -, -⟩ | ⟨-, ⟨l, hexp⟩, -, hmid, hstop⟩
      · exact Or.inl ⟨r, hexp, hstart, hmid⟩
      · exact Or.inr ⟨l, hexp, hmid, hstop⟩
  | ghost table =>
      rw [Tracks] at h
      subst h
      rcases (mem_places_ghost hg).1 hp with
        ⟨y, -, -, -, -, hexp, -, hmid, hstop⟩ | ⟨y, -, -, -, -, hexp, hstart, hmid, -⟩
      · exact Or.inr ⟨y.symbol, hexp, hmid, hstop⟩
      · exact Or.inl ⟨y.symbol, hexp, hstart, hmid⟩

section

variable {id : ProductionId} {start mid stop : Nat} {l r : NonTerminal}

/-- A frontier finds the place of a left child beside a tracked right child. -/
theorem mem_places_of_left (hg : g.WellFormed) (h : f.Tracks g n slots)
    (hid : id < g.numProductions) (hexp : (g.production id).expansion = .binary l r)
    (hl : IsSpan n start mid) (hr : IsSpan n mid stop) (hmem : ⟨mid, stop, r⟩ ∈ slots) :
    ⟨id, start, mid, stop⟩ ∈ f.places g n ⟨start, mid, l⟩ := by
  cases f with
  | scan => exact (mem_places_scan hg hl).2 (Or.inl ⟨hid, ⟨r, hexp⟩, rfl, rfl, hr.1, hr.2⟩)
  | ghost table =>
      rw [Tracks] at h
      subst h
      exact (mem_places_ghost hg).2 (Or.inr ⟨_, hmem, rfl,
        Nat.lt_of_le_of_lt (Nat.zero_le start) hl.1, hid, hexp, rfl, rfl, rfl⟩)

/-- A frontier finds the place of a right child beside a tracked left child. -/
theorem mem_places_of_right (hg : g.WellFormed) (h : f.Tracks g n slots)
    (hid : id < g.numProductions) (hexp : (g.production id).expansion = .binary l r)
    (hl : IsSpan n start mid) (hr : IsSpan n mid stop) (hmem : ⟨start, mid, l⟩ ∈ slots) :
    ⟨id, start, mid, stop⟩ ∈ f.places g n ⟨mid, stop, r⟩ := by
  cases f with
  | scan => exact (mem_places_scan hg hr).2 (Or.inr ⟨hid, ⟨l, hexp⟩, hl.1, rfl, rfl⟩)
  | ghost table =>
      rw [Tracks] at h
      subst h
      exact (mem_places_ghost hg).2 (Or.inl ⟨_, hmem, rfl,
        Nat.lt_of_lt_of_le hr.1 hr.2, hid, hexp, rfl, rfl, rfl⟩)

end

/-! ## How many places -/

theorem length_leftHalves_le (hg : g.WellFormed) (key : Nat × Nat) (x : Slot) :
    (GhostTable.leftHalves g n key x).length ≤ g.numProductions := by
  unfold GhostTable.leftHalves
  split
  · rw [List.length_map]
    exact Nat.le_trans (List.length_filter_le _ _) (hg.length_find_le (.left x.symbol))
  · exact Nat.zero_le _

theorem length_rightHalves_le (hg : g.WellFormed) (key : Nat × Nat) (x : Slot) :
    (GhostTable.rightHalves g key x).length ≤ g.numProductions := by
  unfold GhostTable.rightHalves
  split
  · rw [List.length_map]
    exact Nat.le_trans (List.length_filter_le _ _) (hg.length_find_le (.right x.symbol))
  · exact Nat.zero_le _

theorem length_flatMap_le {α β : Type} {k : Nat} {h : α → List β} :
    ∀ (list : List α), (∀ a ∈ list, (h a).length ≤ k) → (list.flatMap h).length ≤ list.length * k
  | [], _ => Nat.zero_le _
  | a :: list, hle => by
      rw [List.flatMap_cons, List.length_append, List.length_cons, Nat.succ_mul, Nat.add_comm]
      exact Nat.add_le_add
        (length_flatMap_le list fun b hb => hle b (List.mem_cons_of_mem a hb))
        (hle a List.mem_cons_self)

theorem length_places_le (hg : g.WellFormed) (h : f.Tracks g n slots)
    (hx : IsSpan n x.start x.stop) :
    (f.places g n x).length ≤ 2 * (n + slots.length) * g.numProductions := by
  obtain ⟨hlt, hle⟩ := hx
  cases f with
  | scan =>
      have hright := length_flatMap_le (List.range' (x.stop + 1) (n - x.stop))
        (h := fun stop => (g.binaryWithLeft x.symbol).map fun id =>
          (⟨id, x.start, x.stop, stop⟩ : Place)) (k := g.numProductions) fun stop _ => by
            rw [List.length_map]
            exact hg.length_find_le (.left x.symbol)
      have hleft := length_flatMap_le (List.range x.start)
        (h := fun start => (g.binaryWithRight x.symbol).map fun id =>
          (⟨id, start, x.start, x.stop⟩ : Place)) (k := g.numProductions) fun start _ => by
            rw [List.length_map]
            exact hg.length_find_le (.right x.symbol)
      rw [List.length_range'] at hright
      rw [List.length_range] at hleft
      change (_ ++ _ : List Place).length ≤ _
      rw [List.length_append]
      refine Nat.le_trans (Nat.add_le_add hright hleft) ?_
      rw [← Nat.add_mul]
      exact Nat.mul_le_mul_right _ (by omega)
  | ghost table =>
      rw [Tracks] at h
      subst h
      change (_ ++ _ : List Place).length ≤ _
      rw [List.length_append, List.length_map, List.length_map, GhostTable.awaitingRight_ofSlots,
        GhostTable.awaitingLeft_ofSlots]
      refine Nat.le_trans (Nat.add_le_add
        (length_flatMap_le slots fun y _ => length_leftHalves_le hg _ y)
        (length_flatMap_le slots fun y _ => length_rightHalves_le hg _ y)) ?_
      rw [← Nat.add_mul]
      exact Nat.mul_le_mul_right _ (by omega)

end Frontier

end BestParse
