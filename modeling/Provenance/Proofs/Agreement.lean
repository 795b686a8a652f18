import Provenance.Proofs.Allocations
import Provenance.Proofs.Frames
import Provenance.Proofs.Operations

/-!
# Programs and direct evaluation

A program that resolution makes is carried out in the store; the query that it was made from is
evaluated directly. Both end alike: they fail, or they give the same answers and leave the same
contents under every variable.

What an expression stands for is made by the instructions that its evaluation adds. These write to new
names only, so that the values of other expressions and of variables stay as they are. That new names
are new follows from the numbers: those of the names that are bound are not over the counter, and
the numbers after it do not come round within one program.
-/

namespace Provenance

open Query Store Action Resolution Meaning Direct

variable {σ α β : Type} {b : Backend σ} {view : σ → Database}

/-! ## Names that are in use -/

theorem wrapped_eq (n : Int) :
    wrapped n = if n % 2 ^ 64 < 2 ^ 63 then n % 2 ^ 64 else n % 2 ^ 64 - 2 ^ 64 := by
  rw [wrapped, Int.bmod_def]
  rfl

/-- Names that are in use, and a counter after which so many numbers may be given out that no name in use
has. -/
structure Supply where
  known : String → Prop
  counter : Int
  room : Nat
  word : Text.isWord counter = true
  few : room ≤ 2 ^ 64
  base : known Graph.base.name
  own : ∀ name, known name → IsOwn name
  fresh : ∀ name, known name → ∀ i < room, ¬ IsNumbered (SymbolTable.wordAfter^[i + 1] counter) name

/-- The base graph, or a name whose number was given out. -/
def IsAllocated (c : Int) (name : String) : Prop :=
  name = Graph.base.name ∨ ∃ n, 1 ≤ n ∧ n ≤ c ∧ IsNumbered n name

theorem IsAllocated.isOwn {c : Int} {name : String} (h : IsAllocated c name) : IsOwn name :=
  h.imp_right fun ⟨_, _, _, hn⟩ => hn.isGenerated

theorem isAllocated_base (c : Int) : IsAllocated c Graph.base.name := .inl rfl

theorem IsAllocated.not_isNumbered {c : Int} (hc : Text.isWord c = true) {name : String} (hname : IsAllocated c name)
    {i : Nat} (hi : i < 2 ^ 63) : ¬ IsNumbered (SymbolTable.wordAfter^[i + 1] c) name := by
  intro hnumber
  rw [iterate_wordAfter_eq_wrapped hc] at hnumber
  rw [Text.isWord, Bool.and_eq_true, decide_eq_true_eq, decide_eq_true_eq] at hc
  obtain rfl | ⟨n, hn, hnc, hold⟩ := hname
  · exact not_isGenerated_base hnumber.isGenerated
  · have heq := hold.eq hnumber
    rw [wrapped_eq] at heq
    split at heq <;> omega

/-- Numbers that were given out come round after that many names only. -/
def Supply.ofCounter {c : Int} (hc : Text.isWord c = true) : Supply where
  known := IsAllocated c
  counter := c
  room := 2 ^ 63
  word := hc
  few := Nat.pow_le_pow_right Nat.two_pos (Nat.le_succ 63)
  base := isAllocated_base c
  own _ hname := hname.isOwn
  fresh _ hname _ hi := hname.not_isNumbered hc hi

namespace Draft

variable {k : Supply} {c : Int} {d d' d'' : Draft σ}

/-- The name was in use before, or the program creates it. -/
def Uses (k : Supply) (d : Draft σ) (name : String) : Prop := k.known name ∨ Program.Creates d.program name

theorem Uses.extends {name : String} (h : d.Uses k name) (hext : Extends d d') : d'.Uses k name := by
  obtain ⟨more, hprogram, -⟩ := hext.program
  rw [Uses, hprogram]
  exact h.imp_right fun hcreates => hcreates.append more

theorem Traced.uses (h : d.Traced k.known) {name : String} (hname : d.Knows name) :
    d.Uses k name := by
  obtain ⟨var, hvar⟩ | ⟨-, hcreates⟩ := hname
  · exact h.lookup? k.base hvar
  · exact .inr hcreates

theorem Traced.isOwn (h : d.Traced k.known) {name : String} (hname : d.Uses k name) : IsOwn name := by
  obtain hold | hi | hi := hname
  · exact k.own name hold
  · exact .inr (h.targets _ hi _ rfl)
  · exact .inr (h.targets _ hi _ rfl)

/-- A name that a program creates has the number of its place. -/
theorem Allocates.number (h : d.Allocates c) {name : String} (hname : Program.Creates d.program name) :
    ∃ i < (Program.creations d.program).length, IsNumbered (SymbolTable.wordAfter^[i + 1] c) name := by
  obtain ⟨i, hi, rfl⟩ := List.mem_iff_getElem.1 (Program.mem_creations.2 hname)
  have hnumber := h.numbers.get (i := i) (by rw [length_numbersAfter]; exact hi) hi
  rw [List.get_eq_getElem, List.get_eq_getElem] at hnumber
  simp only [numbersAfter, List.getElem_iterate] at hnumber
  exact ⟨i, hi, hnumber⟩

/-- The next name is not in use. -/
theorem Allocates.ne_next (h : d.Allocates k.counter)
    (hroom : (Program.creations d.program).length < k.room) {name next : String} (hname : d.Uses k name)
    (hnext : IsNumbered (SymbolTable.wordAfter d.workspace.symbols.counter) next) : name ≠ next := by
  rintro rfl
  rw [h.counter, ← Function.iterate_succ_apply' SymbolTable.wordAfter] at hnext
  obtain hknown | hcreates := hname
  · exact k.fresh name hknown _ hroom hnext
  · obtain ⟨i, hi, hnumber⟩ := h.number hcreates
    rw [iterate_wordAfter_eq_wrapped k.word] at hnext hnumber
    have heq := hnumber.eq hnext
    have hfew := k.few
    rw [wrapped_eq, wrapped_eq] at heq
    split at heq <;> split at heq <;> omega

theorem Extends.creations_le (h : Extends d d') :
    (Program.creations d.program).length ≤ (Program.creations d'.program).length := by
  obtain ⟨more, hprogram, -⟩ := h.program
  rw [hprogram, Program.creations_append, List.length_append]
  omega

/-! ## Drafts and stores -/

/-- A draft, and a store in which its program was carried out: what variables stand for there. -/
structure Shows (view : σ → Database) (k : Supply) (relations : List Table) (env : Environment) (d : Draft σ)
    (s : σ) : Prop where
  traced : d.Traced k.known
  allocates : d.Allocates k.counter
  relations : (view s).baseRelations = relations
  env : Environment.of d.workspace.symbols (view s) = env

variable {relations : List Table} {env : Environment} {s t : σ}

/-- An expression that is evaluated changes neither variables nor what they stand for. -/
theorem Shows.step (h : Shows view k relations env d s) (hext : Extends d d') (hallocates : d'.Allocates k.counter)
    (hshares : Shares (d.Uses k) (view s) (view t)) : Shows view k relations env d' t := by
  refine ⟨h.traced.extends hext, hallocates, hshares.relations.trans h.relations, ?_⟩
  have hsame : Environment.of d'.workspace.symbols (view t) = Environment.of d.workspace.symbols (view t) :=
    funext fun var => by rw [Environment.of, Environment.of, hext.lookup?]
  rw [hsame, hshares.environment fun var name hvar => h.traced.lookup? k.base hvar]
  exact h.env

/-- What was added to a program leaves what was in use, gives no answers, and yields what an evaluation
gives. -/
def Gives (b : Backend σ) (view : σ → Database) (k : Supply) (relations : List Table) (env : Environment)
    (d d' : Draft σ) (s : σ) (P : α → σ → Prop) (r : Option α) : Prop :=
  ∃ more, d'.program = d.program ++ more ∧
    Program.Yields b more s (fun x answers t => answers = [] ∧ Shares (d.Uses k) (view s) (view t) ∧
      Shows view k relations env d' t ∧ P x t) r

namespace Gives

variable {P P' : α → σ → Prop} {r : Option α}

theorem pure (h : Shows view k relations env d s) {x : α} (hx : P x s) :
    Gives b view k relations env d d s P (some x) :=
  ⟨[], (List.append_nil _).symm, .done (.nil s) ⟨rfl, .refl _ _, h, hx⟩⟩

theorem mono (h : Gives b view k relations env d d' s P r)
    (hP : ∀ x t, Shares (d.Uses k) (view s) (view t) → P x t → P' x t) :
    Gives b view k relations env d d' s P' r := by
  obtain ⟨more, hprogram, hyields⟩ := h
  exact ⟨more, hprogram, hyields.mono fun x answers t _ ⟨hanswers, hshares, hshows, hx⟩ =>
    ⟨hanswers, hshares, hshows, hP x t hshares hx⟩⟩

theorem bind (h : Gives b view k relations env d d' s P r) {f : α → Option β} {Q : β → σ → Prop}
    (hf : ∀ x t, Shows view k relations env d' t → P x t → Gives b view k relations env d' d'' t Q (f x))
    (hext : Extends d' d'') : Gives b view k relations env d d'' s Q (r.bind f) := by
  obtain ⟨more, hprogram, hyields⟩ := h
  obtain ⟨more', hprogram', -⟩ := hext.program
  refine ⟨more ++ more', by rw [hprogram', hprogram, List.append_assoc], hyields.bind ?_⟩
  rintro x answers t ⟨rfl, hshares, hshows, hx⟩
  obtain ⟨last, hlast, hyields'⟩ := hf x t hshows hx
  obtain rfl : last = more' := List.append_cancel_left (hlast.symm.trans hprogram')
  refine hyields'.mono fun y later u _ ⟨hlater, hshares', hshows', hy⟩ =>
    ⟨by rw [hlater]; rfl, hshares.trans hshares' fun name hname => ?_, hshows', hy⟩
  rw [Uses, hprogram]
  exact hname.imp_right fun hcreates => hcreates.append more

end Gives

end Draft

/-! ## Expressions -/

namespace Resolution

open Draft

variable {k : Supply} {d d' : Draft σ} {relations : List Table} {env : Environment} {s : σ}

/-- The value of an expression is in use. -/
theorem evaluate_uses {e : Expr} {x : Value} (h : (evaluate b e).runFrom d = (.ok x, d'))
    (htraced : d.Traced k.known) (hx : x.IsHandle) : d'.Uses k x.shown := by
  obtain ⟨hext, hknows⟩ := evaluate_extends e h
  exact (htraced.extends hext).uses (hknows hx)

theorem evaluateAll_uses {es : List Expr} {xs : List Value} (h : (evaluateAll b es).runFrom d = (.ok xs, d'))
    (htraced : d.Traced k.known) : ∀ x ∈ xs, x.IsHandle → d'.Uses k x.shown := by
  induction es generalizing d xs with
  | nil =>
    rw [evaluateAll] at h
    cases h
    intro x hx
    cases hx
  | cons e es ih =>
    obtain ⟨y, d₁, ys, rfl, hy, hys⟩ := evaluateAll_cons_ok h
    intro x hx hhandle
    obtain rfl | hx := List.mem_cons.1 hx
    · exact (evaluate_uses hy htraced hhandle).extends (evaluateAll_extends es hys)
    · exact ih hys (htraced.extends (evaluate_extends e hy).1) x hx hhandle

theorem find?_of_findOperation {name : String} {onGraph : Bool} {pos : Position} {o : Operation}
    (h : findOperation name onGraph pos = .ok o) : Operation.find? name onGraph = some o := by
  unfold findOperation at h
  split at h
  · next heq => cases h; exact heq
  · cases h

theorem meaning_named (db : Database) (v : Variable) (name : String) :
    Meaning.of db (named v name) = ofKind v.kind (Holding.of db name) := by
  unfold named ofKind
  split <;> rfl

/-- Carrying out a plan gives what the operation gives. -/
theorem run_gives (hb : b.IsDatabase view False) {plan : Option Value → List Value → Option Plan}
    (hplan : IsOperation plan)
    {subject : Option Value} {operands : List Value} {p : Plan} (hp : plan subject operands = some p)
    (hused : ∀ v, v ∈ subject ∨ v ∈ operands → v.IsHandle → d.Uses k v.shown) {x : Value}
    (hrun : (p.run b).runFrom d = (.ok x, d')) (hroom : (Program.creations d'.program).length ≤ k.room)
    (hshows : Shows view k relations env d s) :
    Gives b view k relations env d d' s (fun m t => Meaning.of (view t) x = m)
      (operate relations plan (subject.map (Meaning.of (view s))) (operands.map (Meaning.of (view s)))) := by
  have hproper := hplan.proper hp
  have hext := (run_extends hproper hrun).1
  have hallocates : d'.Allocates k.counter := by
    have h := Allocates.run (b := b) hproper d hshows.allocates
    rw [hrun] at h
    exact h
  obtain ⟨n, w, hfresh, rfl, rfl⟩ := p.run_ok hrun
  obtain ⟨rfl, -⟩ := freshNumber_ok hfresh
  have hcreations := hproper.creations (SymbolTable.wordAfter d.workspace.symbols.counter)
  have hnew : ∀ name, d.Uses k name →
      name ≠ (p.value (SymbolTable.wordAfter d.workspace.symbols.counter)).shown := by
    intro name hname
    refine hshows.allocates.ne_next ?_ hname (p.isNumbered_value _)
    rw [Program.creations_append, List.length_append] at hroom
    have hone : (Program.creations (p.instructions
        (SymbolTable.wordAfter d.workspace.symbols.counter))).length = 1 := congrArg List.length hcreations
    omega
  have hagrees := operate_agrees hb hplan hp (fun v hv hhandle =>
    ⟨hshows.traced.isOwn (hused v hv hhandle), hnew _ (hused v hv hhandle)⟩) s
  rw [hshows.relations] at hagrees
  refine ⟨_, rfl, hagrees.mono fun m answers t hreplies ⟨hanswers, hmeaning⟩ => ?_⟩
  have htargets := hproper.targets (SymbolTable.wordAfter d.workspace.symbols.counter)
  have hshares : Shares (d.Uses k) (view s) (view t) := hreplies.shares hb
    (fun i hi => ⟨(htargets i hi).2, fun name hname => ?_⟩) (fun i hi name hname => ?_) fun name hname =>
      ⟨hshows.traced.isOwn hname, fun hcreates => ?_⟩
  · exact ⟨hanswers, hshares, hshows.step hext hallocates hshares, hmeaning⟩
  · rw [(htargets i hi).1] at hname
    cases hname
    exact (p.isNumbered_value _).isGenerated
  · rw [(htargets i hi).1] at hname
    cases hname
    exact Program.mem_creations.1 (by rw [Program.creations, hcreations]; exact List.mem_cons_self)
  · have hmem := Program.mem_creations.2 hcreates
    rw [Program.creations, hcreations] at hmem
    exact hnew name hname (List.mem_singleton.1 hmem)

mutual

/-- What the evaluation of an expression adds to the program makes what the expression stands for. -/
theorem evaluate_gives (hb : b.IsDatabase view False) : ∀ (e : Expr) {d d' : Draft σ} {s : σ} {x : Value},
    (evaluate b e).runFrom d = (.ok x, d') → (Program.creations d'.program).length ≤ k.room →
      Shows view k relations env d s →
      Gives b view k relations env d d' s (fun m t => Meaning.of (view t) x = m) (value relations env e)
  | .integer pos n, d, d', s, x, h, hroom, hshows => by
    rw [evaluate] at h
    cases h
    rw [value]
    exact .pure hshows rfl
  | .text pos content, d, d', s, x, h, hroom, hshows => by
    rw [evaluate] at h
    cases h
    rw [value]
    exact .pure hshows rfl
  | .name pos word, d, d', s, x, h, hroom, hshows => by rw [evaluate] at h; cases h
  | .var pos v, d, d', s, x, h, hroom, hshows => by
    rw [evaluate] at h
    obtain ⟨name, hname, rfl, rfl⟩ := valueOf_ok h
    have hvalue : value relations env (.var pos v) = some (ofKind v.kind (Holding.of (view s) name)) := by
      rw [value, ← hshows.env, Environment.of, hname]
      rfl
    rw [hvalue]
    exact .pure hshows (meaning_named _ v name)
  | .call pos function operands, d, d', s, x, h, hroom, hshows => by
    obtain ⟨o, xs, d₁, p, ho, hxs, hp, hrun⟩ := evaluate_call_ok h
    have hext := (run_extends (planCall_proper hp) hrun).1
    rw [value, find?_of_findOperation ho]
    refine (evaluateAll_gives hb operands hxs (hext.creations_le.trans hroom) hshows).bind
      (fun ms t hshows₁ hms => ?_) hext
    rw [← hms]
    refine run_gives hb (isOperation_planCall o) hp (fun v hv => ?_) hrun hroom hshows₁
    obtain hv | hv := hv
    · cases hv
    · exact evaluateAll_uses hxs hshows.traced v hv
  | .apply pos subject operator operands, d, d', s, x, h, hroom, hshows => by
    cases hoperator : isInfix operator with
    | true =>
      obtain ⟨k, e, es, lhs, d₁, rhs, d₂, p, -, rfl, hlhs, hrhs, hp, hrun⟩ :=
        evaluate_infix_ok hoperator h
      have hext := (run_extends (planInfix_proper hp) hrun).1
      have hext' := (evaluate_extends e hrhs).1
      have hroom' := hext.creations_le.trans hroom
      have huses := evaluate_uses hlhs hshows.traced
      rw [value, if_pos hoperator, first]
      refine (evaluate_gives hb subject hlhs (hext'.creations_le.trans hroom') hshows).bind
        (fun l t hshows₁ hl => ?_) (hext'.trans hext)
      refine ((evaluate_gives hb e hrhs hroom' hshows₁).mono fun r u hshares hr =>
        (⟨hr, (hshares.meaning huses).trans hl⟩ : _ ∧ Meaning.of (view u) lhs = l)).bind
          (fun r u hshows₂ ⟨hr, hl⟩ => ?_) hext
      rw [← hl, ← hr]
      have hpair : planPair operator (some lhs) [rhs] = some p := hp
      refine run_gives hb (isOperation_planPair operator) hpair (fun v hv => ?_) hrun hroom hshows₂
      obtain hv | hv := hv
      · cases hv
        exact fun hhandle => (huses hhandle).extends hext'
      · obtain rfl := List.mem_singleton.1 hv
        exact evaluate_uses hrhs hshows₁.traced
    | false =>
      obtain ⟨o, y, d₁, xs, d₂, p, ho, hy, hxs, hp, hrun⟩ := evaluate_method_ok hoperator h
      have hext := (run_extends (planCall_proper hp) hrun).1
      have hext' := evaluateAll_extends operands hxs
      have hroom' := hext.creations_le.trans hroom
      have huses := evaluate_uses hy hshows.traced
      rw [value, if_neg (by simp [hoperator]), find?_of_findOperation ho]
      refine (evaluate_gives hb subject hy (hext'.creations_le.trans hroom') hshows).bind
        (fun l t hshows₁ hl => ?_) (hext'.trans hext)
      refine ((evaluateAll_gives hb operands hxs hroom' hshows₁).mono fun ms u hshares hms =>
        (⟨hms, (hshares.meaning huses).trans hl⟩ : _ ∧ Meaning.of (view u) y = l)).bind
          (fun ms u hshows₂ ⟨hms, hl⟩ => ?_) hext
      rw [← hl, ← hms]
      refine run_gives hb (isOperation_planCall o) hp (fun v hv => ?_) hrun hroom hshows₂
      obtain hv | hv := hv
      · cases hv
        exact fun hhandle => (huses hhandle).extends hext'
      · exact evaluateAll_uses hxs hshows₁.traced v hv

theorem evaluateAll_gives (hb : b.IsDatabase view False) : ∀ (es : List Expr) {d d' : Draft σ} {s : σ} {xs : List Value},
    (evaluateAll b es).runFrom d = (.ok xs, d') → (Program.creations d'.program).length ≤ k.room →
      Shows view k relations env d s →
      Gives b view k relations env d d' s (fun ms t => xs.map (Meaning.of (view t)) = ms)
        (values relations env es)
  | [], d, d', s, xs, h, hroom, hshows => by
    rw [evaluateAll] at h
    cases h
    rw [values]
    exact .pure hshows rfl
  | e :: es, d, d', s, xs, h, hroom, hshows => by
    obtain ⟨y, d₁, ys, rfl, hy, hys⟩ := evaluateAll_cons_ok h
    have hext := evaluateAll_extends es hys
    have huses := evaluate_uses hy hshows.traced
    rw [values]
    refine (evaluate_gives hb e hy (hext.creations_le.trans hroom) hshows).bind
      (fun m t hshows₁ hm => ?_) hext
    refine ((evaluateAll_gives hb es hys hroom hshows₁).mono fun ms u hshares hms =>
      (⟨hms, (hshares.meaning huses).trans hm⟩ : _ ∧ Meaning.of (view u) y = m)).bind
        (fun ms u hshows₂ ⟨hms, hm⟩ => ?_) (.refl _)
    exact .pure hshows₂ (by rw [List.map_cons, hm, hms])

end

end Resolution

end Provenance
