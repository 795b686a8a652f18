import Provenance.Proofs.Handles

/-!
# Traversals of other handles

A traversal of some graphs follows the same traversal of others. Its rounds are the same requests but
for the condition that keeps it on the subject's edges, and it stops after the same round, because
what a round finds is the same on both sides.
-/

namespace Provenance.Backend.Tracks

open Store Action Traversal

variable {T : String → String} {W D E : Set String} {t t' x x' y y' z z' : Graph}

/-- A graph stands for another one, and traversals treat both alike. -/
structure Moves (T : String → String) (D : Set String) (x x' : Graph) : Prop where
  stands : Stands T D x x'
  isBase : x'.isBase = x.isBase

theorem Moves.mono (h : Moves T D x x') (hE : D ⊆ E) : Moves T E x x' := ⟨h.stands.mono hE, h.isBase⟩

/-- The scratch tables of a sweep. -/
structure Holds (T : String → String) (W D : Set String) (s : Tables) : Prop where
  frontier : IsWritten T W D s.frontier s.frontier
  next : IsWritten T W D s.next s.next
  reached : IsWritten T W D s.reached s.reached

theorem isShort_edgeTable : IsShort Algebra.edgeTable := by decide

/-! ## Selections of a round -/

theorem onEdgesOf_matches (hx : Moves T D x x') :
    List.Forall₂ (Condition.Matches T D) (onEdgesOf x) (onEdgesOf x') := by
  unfold onEdgesOf
  rw [hx.isBase]
  split
  · exact .nil
  · exact .cons (.within (hx.stands .edge) ((isShort_of _ _).2 isShort_edgeTable)) .nil

theorem neighbours_matches (hknown : KeepsKnown T D) {s : Tables} (hs : Holds T W D s) (near far : String)
    (hx : Moves T D x x') :
    (s.neighbours near far (onEdgesOf x)).Matches T D (s.neighbours near far (onEdgesOf x')) :=
  .groupedBy (.columns [far] hknown.edges
    (.cons (.within hs.frontier.toHasCopy (isShort_plain _)) (onEdgesOf_matches hx))) _

theorem advance_imitates {s : Tables} (hs : Holds T W D s) : Imitates T W D s.advance s.advance D :=
  .clear hs.frontier (.insertFrom hs.frontier (.idsWhere hs.next.toHasCopy
    (.cons (.outside hs.reached.toHasCopy (isShort_plain _)) .nil))
      (.insertFrom hs.reached (.ids hs.frontier.toHasCopy) .nil))

theorem noteRound_imitates (hknown : KeepsKnown T D) {s : Tables} (hs : Holds T W D s)
    (hx : Moves T D x x') {noted : String} (hnoted : IsWritten T W D noted noted) (hop : Int) :
    Imitates T W D (noteRound s x noted hop) (noteRound s x' noted hop) D := by
  have hedges : Selection.Matches T D
      (.join [.column (.plain "src"), .column (.plain "dst"), .constant (.integer hop)]
        [⟨Algebra.edgeTable, none, .within (.plain "dst") s.frontier :: onEdgesOf x⟩])
      (.join [.column (.plain "src"), .column (.plain "dst"), .constant (.integer hop)]
        [⟨Algebra.edgeTable, none, .within (.plain "dst") s.frontier :: onEdgesOf x'⟩]) := by
    refine .join ?_ (.cons (.plain hknown.edges (.cons (.within hs.frontier.toHasCopy
      (isShort_plain _)) (onEdgesOf_matches hx))) .nil)
    simp [Term.mentions]
  exact .append (.insertFrom hnoted hedges (.clear hs.next (.insertFrom hs.next
    (neighbours_matches hknown hs "dst" "src" hx) .nil))) (advance_imitates hs)

theorem followRound_imitates {s : Tables} (hs : Holds T W D s) {noted : String}
    (hnoted : HasCopy T D noted noted) (maxDepth hop : Int) :
    Imitates T W D (followRound s noted maxDepth hop) (followRound s noted maxDepth hop) D := by
  refine .append (.clear hs.next (.insertFrom hs.next (.groupedBy (.columns _ hnoted
    (.cons (.within hs.frontier.toHasCopy (isShort_plain _)) (.cons (.plain ?_ rfl) .nil))) _) .nil))
      (advance_imitates hs)
  simp [Condition.IsShort, Condition.mentions]

theorem intoFrontier_matches {s : Tables} (hs : Holds T W D s) {connected : String}
    (hconnected : HasCopy T D connected connected) {terms : List Term}
    (hterms : ∀ term ∈ terms, ∀ ref ∈ term.mentions, ref.IsShort) :
    (intoFrontier s connected terms).Matches T D (intoFrontier s connected terms) := by
  have hc : IsShort "c" := by decide
  have hk : IsShort "k" := by decide
  refine .join hterms (.cons (.renamed hs.frontier.toHasCopy hc .nil) (.cons (.renamed hconnected hk
    (.cons (.plain ?_ rfl) .nil)) .nil))
  simp [Condition.IsShort, Condition.mentions, hc, hk]

theorem noteReachingRound_imitates {s : Tables} (hs : Holds T W D s) {connected noted : String}
    (hconnected : HasCopy T D connected connected) (hnoted : IsWritten T W D noted noted) (hop : Int) :
    Imitates T W D (noteReachingRound s connected noted hop) (noteReachingRound s connected noted hop) D := by
  have hc : IsShort "c" := by decide
  have hk : IsShort "k" := by decide
  refine .insertFrom hnoted (intoFrontier_matches hs hconnected ?_) (.clear hs.next (.insertFrom hs.next
    (intoFrontier_matches hs hconnected ?_) (.clear hs.frontier (.insertFrom hs.frontier
      (.groupedBy (.columns _ hs.next.toHasCopy (.cons (.outside hs.reached.toHasCopy
        (isShort_plain _)) .nil)) _) (.insertFrom hs.reached
          (.groupedBy (.ids hs.frontier.toHasCopy) _) .nil)))))
  · simp [Term.mentions, hc, hk]
  · simp [Term.mentions, hc, hk]

theorem followNearestRound_imitates {s : Tables} (hs : Holds T W D s) {noted : String}
    (hnoted : HasCopy T D noted noted) (maxDepth hop : Int) :
    Imitates T W D (followNearestRound s noted maxDepth hop) (followNearestRound s noted maxDepth hop) D := by
  have hc : IsShort "c" := by decide
  have hd : IsShort "s" := by decide
  have ht : IsShort "t" := by decide
  refine .append (.clear hs.next (.insertFrom hs.next (.grouped (.join ?_
    (.cons (.renamed hs.frontier.toHasCopy hc .nil) (.cons (.renamed hnoted hd
      (.cons (.plain ?_ rfl) (.cons (.plain ?_ rfl) (.cons (.leastOf hnoted ?_) .nil)))) .nil))) ?_) .nil))
        (advance_imitates hs)
  · simp [Term.mentions, hd]
  · simp [Condition.IsShort, Condition.mentions, hc, hd]
  · simp [Condition.IsShort, Condition.mentions, hd]
  · simp [Condition.IsShort, Condition.mentions, hd, ht]
  · simp [hd]

theorem connections_matches (hknown : KeepsKnown T D) (hx : Moves T D x x') :
    (connections x).Matches T D (connections x') := by
  unfold connections
  rw [hx.isBase]
  refine .groupedBy (.columns _ hknown.edges ?_) _
  split
  · exact .nil
  · exact .cons (.within (hx.stands .edge) (isShort_plain _)) .nil

/-! ## Traversals -/

variable {σ τ : Type} {b : Backend σ} {b' : Backend τ} {R : Set String → σ → τ → Prop}
  (h : b.Tracks b' T W R)

include h

theorem sweep {round round' : Int → List Statement} {frontier : String}
    (hround : ∀ hop, Imitates T W D (round hop) (round' hop) D)
    (hfrontier : HasCopy T D frontier frontier) (rounds : Nat) (hop : Int) :
    Follows (R D) (R D) (sweep b round frontier rounds hop) (sweep b' round' frontier rounds hop) := by
  induction rounds generalizing hop with
  | zero => exact .pure _
  | succ rounds ih =>
    refine (h.perform (hround hop)).bind fun _ => (h.count hfrontier).bind fun size => ?_
    split
    · exact .pure _
    · exact ih (hop + 1)

theorem lineage (hknown : KeepsKnown T D) (ht : Fills T W D t t') (hx : Moves T D x x')
    (hy : Stands T D y y') (depth : Int) (direction : Direction) :
    Follows (R D) (R D) (lineage b t x y depth direction) (lineage b' t' x' y' depth direction) := by
  refine h.within (.forM fun one _ => ?_)
  simp only [expand, bind_assoc, pure_bind]
  refine h.inScratch.createIntegers_bind (by decide) fun D₁ h₁ hcur =>
    h.inScratch.createIntegers_bind (by decide) fun D₂ h₂ hnext =>
    h.inScratch.createIntegers_bind (by decide) fun D₃ h₃ hanswer =>
    h.inScratch.createIntegers_bind (by decide) fun E h₄ hcrossed => ?_
  have hs : Holds T W E ⟨scratchPrefix ++ "cur", scratchPrefix ++ "next", scratchPrefix ++ "answer"⟩ :=
    ⟨hcur.mono (h₂.trans (h₃.trans h₄)), hnext.mono (h₃.trans h₄), hanswer.mono h₄⟩
  have hE : D ⊆ E := h₁.trans (h₂.trans (h₃.trans h₄))
  have hknown := hknown.mono hE
  have ht := ht.mono hE
  have hx := hx.mono hE
  have hy := hy.mono hE
  refine .bind (h.inScratch.perform (.insertFrom hs.frontier (.ids (hy .vertex))
    (.insertFrom hs.reached (.ids hs.frontier.toHasCopy) .nil))) fun _ =>
      .bind (h.inScratch.sweep (fun hop => ?_) hs.frontier.toHasCopy _ _) fun _ =>
        h.inScratch.perform (.insertFrom (ht .vertex) (.ids hs.reached.toHasCopy)
          (.insertFrom (ht .edge) (.groupedBy (.ids hcrossed.toHasCopy) _) .nil))
  exact .append (.clear hs.next (.insertFrom hs.next (neighbours_matches hknown hs _ _ hx)
    (.insertFrom hcrossed (.idsWhere hknown.edges (.cons (.within hs.frontier.toHasCopy
      (isShort_plain _)) (onEdgesOf_matches hx))) .nil))) (advance_imitates hs)

theorem restart {s : Tables} (hs : Holds T W D s) (hy : Stands T D y y') :
    Follows (R D) (R D) (restart b s y) (restart b' s y') :=
  h.perform (.clear hs.frontier (.insertFrom hs.frontier (.idsWhere (hy .vertex)
    (.cons (.within hs.reached.toHasCopy (isShort_plain _)) .nil)) (.clear hs.reached
      (.insertFrom hs.reached (.ids hs.frontier.toHasCopy) .nil))))

theorem writeInduced (hknown : KeepsKnown T D) (ht : Fills T W D t t') (hx : Moves T D x x')
    {reached : String} (hr : HasCopy T D reached reached) :
    Follows (R D) (R D) (writeInduced b t x reached) (writeInduced b' t' x' reached) :=
  h.perform (.insertFrom (ht .vertex) (.ids hr) (.insertFrom (ht .edge) (.idsWhere hknown.edges
    (.cons (.within hr (isShort_plain _)) (.cons (.within hr (isShort_plain _))
      (onEdgesOf_matches hx)))) .nil))

theorem path (hknown : KeepsKnown T D) (ht : Fills T W D t t') (hx : Moves T D x x')
    (hy : Stands T D y y') (hz : Stands T D z z') (maxDepth : Int) :
    Follows (R D) (R D) (path b t x y z maxDepth) (path b' t' x' y' z' maxDepth) := by
  refine h.within (h.inScratch.createIntegers_bind (by decide) fun D₁ h₁ hcur =>
    h.inScratch.createIntegers_bind (by decide) fun D₂ h₂ hnext =>
    h.inScratch.createIntegers_bind (by decide) fun D₃ h₃ hanswer =>
    h.inScratch.createIntegers_bind (by decide) fun E h₄ hnoted => ?_)
  have hs : Holds T W E ⟨scratchPrefix ++ "cur", scratchPrefix ++ "next", scratchPrefix ++ "answer"⟩ :=
    ⟨hcur.mono (h₂.trans (h₃.trans h₄)), hnext.mono (h₃.trans h₄), hanswer.mono h₄⟩
  have hE : D ⊆ E := h₁.trans (h₂.trans (h₃.trans h₄))
  have hknown := hknown.mono hE
  have ht := ht.mono hE
  have hx := hx.mono hE
  have hy := hy.mono hE
  have hz := hz.mono hE
  exact .bind (h.inScratch.perform (.insertFrom hs.frontier (.ids (hz .vertex))
    (.insertFrom hs.reached (.ids hs.frontier.toHasCopy) .nil))) fun _ =>
      .bind (h.inScratch.sweep (noteRound_imitates hknown hs hx hnoted) hs.frontier.toHasCopy _ _) fun _ =>
        .bind (h.inScratch.restart hs hy) fun _ =>
          .bind (h.inScratch.sweep (followRound_imitates hs hnoted.toHasCopy maxDepth)
            hs.frontier.toHasCopy _ _) fun _ => h.inScratch.writeInduced hknown ht hx hs.reached.toHasCopy

theorem shortestPath (hknown : KeepsKnown T D) (ht : Fills T W D t t') (hx : Moves T D x x')
    (hy : Stands T D y y') (hz : Stands T D z z') (maxDepth : Int) :
    Follows (R D) (R D) (shortestPath b t x y z maxDepth) (shortestPath b' t' x' y' z' maxDepth) := by
  refine h.within (h.inScratch.createIntegers_bind (by decide) fun D₁ h₁ hconn =>
    .bind (h.inScratch.perform (.insertFrom hconn (connections_matches (hknown.mono h₁) (hx.mono h₁))
      .nil)) fun _ =>
    h.inScratch.createIntegers_bind (by decide) fun D₂ h₂ hnoted =>
    h.inScratch.createIntegers_bind (by decide) fun D₃ h₃ hcur =>
    h.inScratch.createIntegers_bind (by decide) fun D₄ h₄ hnext =>
    h.inScratch.createIntegers_bind (by decide) fun E h₅ hanswer => ?_)
  have hs : Holds T W E ⟨scratchPrefix ++ "cur", scratchPrefix ++ "next", scratchPrefix ++ "answer"⟩ :=
    ⟨hcur.mono (h₄.trans h₅), hnext.mono h₅, hanswer⟩
  have hconn := hconn.mono (h₂.trans (h₃.trans (h₄.trans h₅)))
  have hnoted := hnoted.mono (h₃.trans (h₄.trans h₅))
  have hE : D ⊆ E := h₁.trans (h₂.trans (h₃.trans (h₄.trans h₅)))
  refine .bind (h.inScratch.perform (.insertFrom hs.frontier (.columns _ (hz.mono hE .vertex) .nil)
    (.insertFrom hs.reached (.groupedBy (.ids hs.frontier.toHasCopy) _) .nil))) fun _ =>
      .bind (h.inScratch.sweep (noteReachingRound_imitates hs hconn.toHasCopy hnoted)
        hs.frontier.toHasCopy _ _) fun _ =>
          h.inScratch.createIntegers_bind (by decide) fun D₆ h₆ hcur =>
          h.inScratch.createIntegers_bind (by decide) fun F h₇ hnext => ?_
  have hs : Holds T W F ⟨scratchPrefix ++ "cur", scratchPrefix ++ "next", scratchPrefix ++ "answer"⟩ :=
    ⟨hcur.mono h₇, hnext, hanswer.mono (h₆.trans h₇)⟩
  have hnoted := hnoted.mono (h₆.trans h₇)
  have hF : D ⊆ F := hE.trans (h₆.trans h₇)
  exact .bind (h.inScratch.restart hs (hy.mono hF)) fun _ =>
    .bind (h.inScratch.sweep (followNearestRound_imitates hs hnoted.toHasCopy maxDepth)
      hs.frontier.toHasCopy _ _) fun _ =>
        h.inScratch.writeInduced (hknown.mono hF) (ht.mono hF) (hx.mono hF) hs.reached.toHasCopy

end Provenance.Backend.Tracks
