import WordGrammar.Grammar.Edit
import WordGrammar.Proofs.Text.Lines
import WordGrammar.Proofs.Text.Split

/-! Faulty lines. Whether a line is a rule, and what is wrong if it is none,
depends only on the number of its arrows. -/

namespace WordGrammar

theorem filterMap_zipIdx_congr {α β γ : Type} {g : α → γ} (f : α → Nat → Option β)
    (hf : ∀ x y, g x = g y → ∀ k, f x k = f y k) {xs ys : List α} (n : Nat)
    (h : xs.map g = ys.map g) :
    (xs.zipIdx n).filterMap (fun x => f x.1 x.2) = (ys.zipIdx n).filterMap (fun y => f y.1 y.2) := by
  induction xs generalizing ys n with
  | nil =>
    have hy : ys = [] := List.map_eq_nil_iff.mp h.symm
    rw [hy]
  | cons x xs ih =>
    cases ys with
    | nil => simp at h
    | cons y ys =>
      obtain ⟨h1, h2⟩ := List.cons.inj h
      simp only [List.zipIdx_cons, List.filterMap_cons, hf x y h1 n, ih (n + 1) h2]

def Problem.ofArrows? : Nat → Option Problem
  | 0 => some .missingArrow
  | 1 => none
  | _ + 2 => some .repeatedArrow

namespace Rule

def arrowFaults (file : Path) (lines : List (Text × Nat)) : List Diagnostic :=
  lines.filterMap fun l => (Problem.ofArrows? (Text.count arrow l.1)).map (⟨⟨file, l.2⟩, ·⟩)

theorem ofLine_eq_error_iff {line : Text} {p : Problem} :
    ofLine line = .error p ↔ Problem.ofArrows? (Text.count arrow line) = some p := by
  have hl := Text.length_split arrow line
  rcases hp : Text.split arrow line with _ | ⟨p, _ | ⟨q, _ | ⟨r, ps⟩⟩⟩
  · exact absurd hp (Text.split_ne_nil arrow line)
  · have hc : Text.count arrow line = 0 := by simpa [hp] using hl.symm
    simp [ofLine, hp, hc, Problem.ofArrows?]
  · have hc : Text.count arrow line = 1 := by simpa [hp] using hl.symm
    simp [ofLine, hp, hc, Problem.ofArrows?]
  · have hc : Text.count arrow line = ps.length + 2 := by simpa [hp] using hl.symm
    simp [ofLine, hp, hc, Problem.ofArrows?]

theorem fault?_eq (file : Path) (line : Text) (number : Nat) :
    fault? file line number =
      (Problem.ofArrows? (Text.count arrow line)).map (⟨⟨file, number⟩, ·⟩) := by
  unfold fault?
  cases hl : ofLine line with
  | ok r =>
    have hn : Problem.ofArrows? (Text.count arrow line) = none := by
      apply Option.eq_none_iff_forall_ne_some.mpr
      intro p hp
      rw [← ofLine_eq_error_iff, hl] at hp
      cases hp
    rw [hn]
    rfl
  | error p =>
    rw [ofLine_eq_error_iff.mp hl]
    rfl

theorem count_arrow_dropReturn (p : Text) :
    Text.count arrow (Text.dropReturn p) = Text.count arrow p := by
  rcases Text.dropReturn_eq_or p with h | h
  · rw [h]
  · have hh : Text.count arrow (Text.dropReturn p ++ ['\r']) = Text.count arrow (Text.dropReturn p) :=
      Text.count_concat (by decide) (by decide) _
    rw [← h] at hh
    exact hh.symm

theorem map_count_arrow_dropReturns (ps : List Text) :
    (Text.dropReturns ps).map (Text.count arrow) = ps.map (Text.count arrow) := by
  induction ps with
  | nil => rfl
  | cons p ps ih =>
    cases ps with
    | nil => rfl
    | cons q ps =>
      rw [Text.dropReturns_cons (List.cons_ne_nil q ps), List.map_cons, ih, count_arrow_dropReturn]
      rfl

theorem arrowFaults_congr {file : Path} {ls ms : List Text} (n : Nat)
    (h : ls.map (Text.count arrow) = ms.map (Text.count arrow)) :
    arrowFaults file (ls.zipIdx n) = arrowFaults file (ms.zipIdx n) := by
  simp only [arrowFaults, ← fault?_eq]
  refine filterMap_zipIdx_congr (fault? file) ?_ n h
  intro l m hc k
  rw [fault?_eq, fault?_eq, hc]

theorem arrowFaults_eq_nil_iff {file : Path} {ls : List (Text × Nat)} :
    arrowFaults file ls = [] ↔ ∀ l ∈ ls, Text.count arrow l.1 = 1 := by
  have hp : ∀ n, Problem.ofArrows? n = none ↔ n = 1 := by
    intro n
    rcases n with _ | _ | n <;> simp [Problem.ofArrows?]
  simp only [arrowFaults, List.filterMap_eq_nil_iff, Option.map_eq_none_iff, hp]

theorem pairwise_line_arrowFaults (file : Path) (ls : List Text) (n : Nat) :
    (arrowFaults file (ls.zipIdx n)).Pairwise (fun d e => d.location.line < e.location.line) := by
  have hz : (ls.zipIdx n).Pairwise (fun l m => l.2 < m.2) := by
    have hr : ((ls.zipIdx n).map Prod.snd).Pairwise (· < ·) := by
      rw [List.zipIdx_map_snd]
      exact List.pairwise_lt_range'
    exact List.pairwise_map.mp hr
  refine List.Pairwise.filterMap _ ?_ hz
  intro l m hlm d hd e he
  obtain ⟨_, -, rfl⟩ := Option.map_eq_some_iff.mp hd
  obtain ⟨_, -, rfl⟩ := Option.map_eq_some_iff.mp he
  exact hlm

end Rule

namespace Grammar

theorem faults_eq_arrowFaults (file : Path) (lines : List Text) (n : Nat) :
    faults file lines n = Rule.arrowFaults file (lines.zipIdx n) := by
  simp only [faults, Rule.arrowFaults, Rule.fault?_eq]

theorem read_eq (file : Path) (text : Text) :
    read file text =
      if Rule.arrowFaults file ((Text.lines text).zipIdx 1) = [] then
        .ok (ofRules ((Text.lines text).filterMap Rule.ofLine?))
      else .error (Rule.arrowFaults file ((Text.lines text).zipIdx 1)) := by
  rw [← faults_eq_arrowFaults]
  exact read_eq_ite file text

end Grammar

end WordGrammar
