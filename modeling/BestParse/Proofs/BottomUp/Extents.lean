import BestParse.Search.BottomUp.Extents
import BestParse.Proofs.Chart.Commit

/-!
# What extents promise

Extents *know* a slot when the slot's stop lies between the stops recorded at its
start and its start between the starts recorded at its stop.  A slot that is known
stays known, and finishing a cell makes its slots known.

Extents may leave split points that no child reaches; that only costs time.  What
they must not do is rule a split point out whose children are both there, and
`feasible_of_knows` says that they do not.
-/

namespace BestParse
namespace Extents

/-- The slot lies within the recorded extents of its nonterminal. -/
structure Knows (x : Extents) (s : Slot) : Prop where
  nearStop_le : x.nearStop.getD (x.place s.symbol s.start) 0 ≤ s.stop
  le_farStop : (s.stop : Int) ≤ x.farStop.getD (x.place s.symbol s.start) 0
  farStart_le : x.farStart.getD (x.place s.symbol s.stop) 0 ≤ s.start
  le_nearStart : (s.start : Int) ≤ x.nearStart.getD (x.place s.symbol s.stop) 0

/-- The tables have room for every nonterminal and position. -/
structure Sized (symbols n : Nat) (x : Extents) : Prop where
  stride_eq : x.stride = n + 1
  nearStop_size : x.nearStop.size = symbols * (n + 1)
  farStop_size : x.farStop.size = symbols * (n + 1)
  nearStart_size : x.nearStart.size = symbols * (n + 1)
  farStart_size : x.farStart.size = symbols * (n + 1)

theorem sized_start (symbols n : Nat) : (start symbols n).Sized symbols n :=
  ⟨rfl, by simp [start], by simp [start], by simp [start], by simp [start]⟩

variable {symbols n : Nat} {x : Extents}

theorem place_lt (h : x.Sized symbols n) {nt : NonTerminal} (hnt : nt < symbols) {i : Nat}
    (hi : i ≤ n) : x.place nt i < symbols * (n + 1) := by
  unfold place
  rw [h.stride_eq]
  exact Address.layer_lt hnt (Nat.lt_succ_of_le hi)

/-! ## Taking up a slot -/

section

variable {first last : Nat} {nt : NonTerminal}

theorem sized_extend (h : x.Sized symbols n) (first last : Nat) (nt : NonTerminal) :
    (x.extend first last nt).Sized symbols n :=
  ⟨h.stride_eq, by simpa [extend] using h.nearStop_size, by simpa [extend] using h.farStop_size,
    by simpa [extend] using h.nearStart_size, by simpa [extend] using h.farStart_size⟩

/-- Taking up a slot only widens what is known. -/
theorem Knows.extend (h : x.Sized symbols n) {s : Slot} (hs : x.Knows s) (hfirst : first ≤ n)
    (hlast : last ≤ n) (hnt : nt < symbols) : (x.extend first last nt).Knows s := by
  have hl := place_lt h hnt hfirst
  have hr := place_lt h hnt hlast
  obtain ⟨hnear, hfar, hfar', hnear'⟩ := hs
  constructor
  · change (x.nearStop.modify _ _).getD (x.place s.symbol s.start) 0 ≤ _
    rw [Chart.getD_modify (h.nearStop_size ▸ hl)]
    split <;> omega
  · change _ ≤ (x.farStop.modify _ _).getD (x.place s.symbol s.start) 0
    rw [Chart.getD_modify (h.farStop_size ▸ hl)]
    split <;> omega
  · change (x.farStart.modify _ _).getD (x.place s.symbol s.stop) 0 ≤ _
    rw [Chart.getD_modify (h.farStart_size ▸ hr)]
    split <;> omega
  · change _ ≤ (x.nearStart.modify _ _).getD (x.place s.symbol s.stop) 0
    rw [Chart.getD_modify (h.nearStart_size ▸ hr)]
    split <;> omega

theorem knows_extend (h : x.Sized symbols n) (hfirst : first ≤ n) (hlast : last ≤ n)
    (hnt : nt < symbols) : (x.extend first last nt).Knows ⟨first, last, nt⟩ := by
  have hl := place_lt h hnt hfirst
  have hr := place_lt h hnt hlast
  constructor
  · change (x.nearStop.modify _ _).getD (x.place nt first) 0 ≤ _
    rw [Chart.getD_modify (h.nearStop_size ▸ hl), if_pos rfl]
    exact Int.min_le_right _ _
  · change _ ≤ (x.farStop.modify _ _).getD (x.place nt first) 0
    rw [Chart.getD_modify (h.farStop_size ▸ hl), if_pos rfl]
    exact Int.le_max_right _ _
  · change (x.farStart.modify _ _).getD (x.place nt last) 0 ≤ _
    rw [Chart.getD_modify (h.farStart_size ▸ hr), if_pos rfl]
    exact Int.min_le_right _ _
  · change _ ≤ (x.nearStart.modify _ _).getD (x.place nt last) 0
    rw [Chart.getD_modify (h.nearStart_size ▸ hr), if_pos rfl]
    exact Int.le_max_right _ _

end

/-! ## Finishing a cell -/

theorem extend_all {first last : Nat} (hfirst : first ≤ n) (hlast : last ≤ n) :
    ∀ (nts : List NonTerminal) {x : Extents}, x.Sized symbols n → (∀ nt ∈ nts, nt < symbols) →
      (nts.foldl (fun x nt => x.extend first last nt) x).Sized symbols n ∧
      (∀ s, x.Knows s → (nts.foldl (fun x nt => x.extend first last nt) x).Knows s) ∧
      ∀ nt ∈ nts, (nts.foldl (fun x nt => x.extend first last nt) x).Knows ⟨first, last, nt⟩
  | [], _, h, _ => ⟨h, fun _ hs => hs, nofun⟩
  | nt :: nts, x, h, hnts => by
      have hnt := hnts nt List.mem_cons_self
      obtain ⟨hsized, hkeep, hnew⟩ := extend_all hfirst hlast nts (sized_extend h first last nt)
        fun nt' hnt' => hnts nt' (List.mem_cons_of_mem nt hnt')
      refine ⟨hsized, fun s hs => hkeep s (hs.extend h hfirst hlast hnt), ?_⟩
      intro nt' hnt'
      rcases List.mem_cons.1 hnt' with rfl | hrest
      · exact hkeep _ (knows_extend h hfirst hlast hnt)
      · exact hnew nt' hrest

/-! ## Feasible split points -/

/-- A split point between known children is feasible. -/
theorem feasible_of_knows {l r : NonTerminal} {first mid last : Nat}
    (hl : x.Knows ⟨first, mid, l⟩) (hr : x.Knows ⟨mid, last, r⟩) :
    ∃ low high, x.feasible l r first last = some (low, high) ∧ low ≤ mid ∧ mid ≤ high := by
  have hlow : max (x.nearStop.getD (x.place l first) 0) (x.farStart.getD (x.place r last) 0) ≤
      (mid : Int) := Int.max_le.2 ⟨hl.nearStop_le, hr.farStart_le⟩
  have hhigh : (mid : Int) ≤
      min (x.farStop.getD (x.place l first) 0) (x.nearStart.getD (x.place r last) 0) :=
    Int.le_min.2 ⟨hl.le_farStop, hr.le_nearStart⟩
  refine ⟨_, _, if_neg (Int.not_lt.2 (Int.le_trans hlow hhigh)), ?_, ?_⟩
  · exact Int.toNat_le.2 hlow
  · exact Int.le_toNat (by omega) |>.2 hhigh

end Extents
end BestParse
