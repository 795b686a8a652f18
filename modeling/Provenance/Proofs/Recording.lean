import Provenance.Proofs.Footprint

/-!
# Records of calls

A store may keep a record of the calls that it gets, each with its reply. Every store can be made to.

What an instruction says to a store is looked at through such a record: only requests are sent, and
if scratch tables were created, the last of them drops these tables, in the order in which they were
first created. This holds whatever the store replies, so also for an instruction that fails.
-/

namespace Provenance

open Store Action

/-- A call of a store and the reply to it. -/
inductive Exchange where
  | executed (r : Request) (reply : Except BackendError String)
  | queried (r : Request) (reply : Except BackendError (List (List String)))
  | listed (reply : Except BackendError (List String))
  | acquired
  | released

/-- A store and the calls made to it, the first one first. -/
structure Recorded (σ : Type) where
  store : σ
  record : List Exchange

variable {σ τ α : Type} {b : Backend σ} {record : σ → List Exchange} {I : σ → Prop}

/-- The store that does the same and keeps a record. -/
def Backend.recorded (b : Backend σ) : Backend (Recorded σ) where
  execute r := .of fun s =>
    let (reply, store) := (b.execute r).runFrom s.store
    (reply, ⟨store, s.record ++ [.executed r reply]⟩)
  queryRows r := .of fun s =>
    let (reply, store) := (b.queryRows r).runFrom s.store
    (reply, ⟨store, s.record ++ [.queried r reply]⟩)
  relationNames := .of fun s =>
    let (reply, store) := b.relationNames.runFrom s.store
    (reply, ⟨store, s.record ++ [.listed reply]⟩)
  acquire s := ⟨b.acquire s.store, s.record ++ [.acquired]⟩
  release s := ⟨b.release s.store, s.record ++ [.released]⟩

/-- The store keeps a record. -/
structure Backend.Records (b : Backend σ) (record : σ → List Exchange) : Prop where
  execute : ∀ r s, record ((b.execute r).runFrom s).2
    = record s ++ [.executed r ((b.execute r).runFrom s).1]
  queryRows : ∀ r s, record ((b.queryRows r).runFrom s).2
    = record s ++ [.queried r ((b.queryRows r).runFrom s).1]
  relationNames : ∀ s, record (b.relationNames.runFrom s).2
    = record s ++ [.listed (b.relationNames.runFrom s).1]
  acquire : ∀ s, record (b.acquire s) = record s ++ [.acquired]
  release : ∀ s, record (b.release s) = record s ++ [.released]

theorem Backend.records_recorded (b : Backend σ) : b.recorded.Records Recorded.record where
  execute _ _ := rfl
  queryRows _ _ := rfl
  relationNames _ := rfl
  acquire _ := rfl
  release _ := rfl

/-- A store that is part of a larger state keeps its record there. -/
theorem Backend.Records.along (hb : b.Records record) {l : Lens τ σ}
    (hl : ∀ s t, l.get (l.set s t) = s) : (b.along l).Records fun t => record (l.get t) where
  execute r t := by simpa [Backend.along, hl] using hb.execute r (l.get t)
  queryRows r t := by simpa [Backend.along, hl] using hb.queryRows r (l.get t)
  relationNames t := by simpa [Backend.along, hl] using hb.relationNames (l.get t)
  acquire t := by simpa [Backend.along, hl] using hb.acquire (l.get t)
  release t := by simpa [Backend.along, hl] using hb.release (l.get t)

/-! ## Scratch tables on the record -/

/-- The scratch table that a request creates, or replaces. -/
def Store.Request.scratch? : Request → Option String
  | .batch false [.drop true table, .create false table' _] =>
    if table = table' then some table else none
  | _ => none

/-- Whether the same tables are there after the statement. -/
def Store.Statement.keepsTables : Statement → Bool
  | .create _ _ _ => false
  | .drop _ _ => false
  | _ => true

theorem Store.Request.scratch?_of_keepsTables {closed : Bool} {ss : List Statement}
    (h : ∀ s ∈ ss, s.keepsTables = true) : (Request.batch closed ss).scratch? = none := by
  unfold Request.scratch?
  split
  · next heq =>
    cases heq
    cases h _ List.mem_cons_self
  · rfl

namespace Instruction

def edgeScratch : List String := [scratchPrefix ++ "answer"]

def lineageScratch : List String := ["cur", "next", "answer", "answer_edge"].map (scratchPrefix ++ ·)

def pathScratch : List String := ["cur", "next", "answer", "sgconn"].map (scratchPrefix ++ ·)

def shortestPathScratch : List String := ["conn", "sgconn", "cur", "next", "answer"].map (scratchPrefix ++ ·)

/-- The scratch tables of an instruction. -/
def scratchNames : Instruction → List String
  | endpoints _ _ _ => edgeScratch
  | subgraph _ _ _ => edgeScratch
  | lineage _ _ _ _ _ => lineageScratch
  | path _ _ _ _ _ => pathScratch
  | shortestPath _ _ _ _ _ => shortestPathScratch
  | _ => []

end Instruction

namespace Exchange

/-- The call sends statements to the store. -/
def IsRequest : Exchange → Prop
  | executed _ _ => True
  | queried _ _ => True
  | _ => False

/-- The scratch table that was created. -/
def created? : Exchange → Option String
  | executed r (.ok _) => r.scratch?
  | _ => none

/-- Keeps a scratch table that was created, unless it is kept already. -/
def remember (tables : List String) (x : Exchange) : List String :=
  match x.created? with
  | none => tables
  | some table => if tables.contains table then tables else tables ++ [table]

/-- The scratch tables that were created, in the order in which they first were. -/
def scratchTables (said : List Exchange) : List String := said.foldl remember []

theorem scratchTables_append (said : List Exchange) (x : Exchange) :
    scratchTables (said ++ [x]) = remember (scratchTables said) x := by
  rw [scratchTables, List.foldl_append]
  rfl

theorem scratchTables_append_of_none {said : List Exchange} {x : Exchange} (hx : x.created? = none) :
    scratchTables (said ++ [x]) = scratchTables said := by
  rw [scratchTables_append, remember, hx]

/-- The last call drops the scratch tables that were created, unless there are none. -/
def Tidied (said : List Exchange) : Prop :=
  scratchTables said = [] ∨ ∃ before reply, said
    = before ++ [executed (.lines ((scratchTables said).map Statement.discard)) reply]

end Exchange

open Exchange

/-- What was said since the record was `old`. -/
def Since (record : σ → List Exchange) (old : List Exchange) (P : σ → List Exchange → Prop)
    (s : σ) : Prop := ∃ said, record s = old ++ said ∧ P s said

/-- Only requests were sent, and none that creates a scratch table. -/
def NoScratch (said : List Exchange) : Prop :=
  (∀ x ∈ said, x.IsRequest) ∧ scratchTables said = []

/-- Only requests were sent, and the scratch tables that they created are remembered. -/
def Remembered (s : Scratch σ) (said : List Exchange) : Prop :=
  (∀ x ∈ said, x.IsRequest) ∧ s.tables = scratchTables said

/-- Statements that keep the tables preserve the property. -/
structure Backend.Respects (b : Backend σ) (I : σ → Prop) : Prop where
  execute : ∀ {closed ss}, ss.all Statement.keepsTables = true → Preserves I (b.execute (.batch closed ss))
  queryRows : ∀ {closed ss}, ss.all Statement.keepsTables = true → Preserves I (b.queryRows (.batch closed ss))

/-- Requests preserve the property, but for those that create scratch tables. -/
structure Backend.Minds (b : Backend σ) (I : σ → Prop) : Prop where
  execute : ∀ r, r.scratch? = none → Preserves I (b.execute r)
  queryRows : ∀ r, Preserves I (b.queryRows r)

/-- So do those that create scratch tables, once these are remembered. -/
structure Backend.MindsScratch (b : Backend (Scratch σ)) (I : Scratch σ → Prop) : Prop
    extends b.Minds I where
  create : ∀ name columns, Preserves I (Scratch.create b name columns)

theorem forall_isRequest_append {said : List Exchange} {x : Exchange}
    (h : ∀ y ∈ said, y.IsRequest) (hx : x.IsRequest) : ∀ y ∈ said ++ [x], y.IsRequest := by
  intro y hy
  rcases List.mem_append.1 hy with hy | hy
  · exact h y hy
  · rw [List.mem_singleton.1 hy]; exact hx

theorem created?_executed {r : Request} (hr : r.scratch? = none) (reply : Except BackendError String) :
    (executed r reply).created? = none := by
  cases reply with
  | error e => rfl
  | ok out => exact hr

theorem Backend.Records.minds_noScratch (hb : b.Records record) (old : List Exchange) :
    b.Minds (Since record old fun _ => NoScratch) where
  execute r hr := by
    rintro s ⟨said, hs, hall, hnone⟩
    refine ⟨said ++ [executed r ((b.execute r).runFrom s).1], ?_,
      forall_isRequest_append hall trivial, ?_⟩
    · rw [hb.execute, hs, List.append_assoc]
    · rw [scratchTables_append_of_none (created?_executed hr _), hnone]
  queryRows r := by
    rintro s ⟨said, hs, hall, hnone⟩
    refine ⟨said ++ [queried r ((b.queryRows r).runFrom s).1], ?_,
      forall_isRequest_append hall trivial, ?_⟩
    · rw [hb.queryRows, hs, List.append_assoc]
    · rw [scratchTables_append_of_none rfl, hnone]

theorem Backend.Records.minds_remembered (hb : b.Records record) (old : List Exchange) :
    (b.along Scratch.storeLens).MindsScratch
      (Since (fun s => record s.store) old Remembered) where
  execute r hr := by
    rintro s ⟨said, (hs : record s.store = old ++ said), hall, htables⟩
    refine ⟨said ++ [executed r ((b.execute r).runFrom s.store).1], ?_,
      forall_isRequest_append hall trivial, ?_⟩
    · change record ((b.execute r).runFrom s.store).2 = _
      rw [hb.execute, hs, List.append_assoc]
    · rw [scratchTables_append_of_none (created?_executed hr _), ← htables]; rfl
  queryRows r := by
    rintro s ⟨said, (hs : record s.store = old ++ said), hall, htables⟩
    refine ⟨said ++ [queried r ((b.queryRows r).runFrom s.store).1], ?_,
      forall_isRequest_append hall trivial, ?_⟩
    · change record ((b.queryRows r).runFrom s.store).2 = _
      rw [hb.queryRows, hs, List.append_assoc]
    · rw [scratchTables_append_of_none rfl, ← htables]; rfl
  create name columns := by
    rintro s ⟨said, (hs : record s.store = old ++ said), hall, htables⟩
    -- one request is sent; the table is remembered if that succeeds
    let r := Request.sequence [.discard (scratchPrefix ++ name),
      .create false (scratchPrefix ++ name) columns]
    have hr : r.scratch? = some (scratchPrefix ++ name) := if_pos rfl
    have hrecord := hb.execute r s.store
    refine ⟨said ++ [executed r ((b.execute r).runFrom s.store).1], ?_⟩
    generalize hrun : (b.execute r).runFrom s.store = x at hrecord
    obtain ⟨reply, t⟩ := x
    have halong : ((b.along Scratch.storeLens).execute r).runFrom s = (reply, ⟨s.tables, t⟩) := by
      simp [Backend.along, Scratch.storeLens, hrun]
    simp only [Scratch.create, Backend.performAll, Backend.perform, bind_assoc, runFrom_bind, halong, r]
    rw [hs, List.append_assoc] at hrecord
    cases reply with
    | error e =>
      exact ⟨hrecord, forall_isRequest_append hall trivial,
        by rw [scratchTables_append_of_none rfl, ← htables]⟩
    | ok out =>
      have hremember : scratchTables (said ++ [executed r (.ok out)])
          = (Scratch.remember (scratchPrefix ++ name) ⟨s.tables, t⟩).tables := by
        rw [scratchTables_append, Exchange.remember, Exchange.created?, hr, ← htables,
          Scratch.remember]
        dsimp only
        split <;> rfl
      refine ⟨?_, forall_isRequest_append hall trivial, hremember.symm⟩
      change record (Scratch.remember _ ⟨s.tables, t⟩).store = _
      rw [Scratch.remember]
      split <;> exact hrecord

/-! ## Instructions that keep the tables -/

theorem Backend.Minds.respects (h : b.Minds I) : b.Respects I where
  execute hss := h.execute _ (Request.scratch?_of_keepsTables (List.all_eq_true.1 hss))
  queryRows _ := h.queryRows _

namespace Backend.Respects

variable (h : b.Respects I)
include h

theorem perform {closed : Bool} {ss : List Statement} (hss : ss.all Statement.keepsTables = true) :
    Preserves I (b.perform (.batch closed ss)) := (h.execute hss).bind fun _ => .pure _

theorem insertFrom (table : String) (q : Selection) : Preserves I (b.performAll [.insertFrom table q]) :=
  h.perform rfl

theorem selects : b.Selects I where
  execute q := h.execute (show [Statement.select q].all Statement.keepsTables = true from rfl)
  queryRows q := h.queryRows (show [Statement.select q].all Statement.keepsTables = true from rfl)

theorem count (table : String) : Preserves I (b.count table) := h.selects.count table

theorem limit (target source : Graph) (bound : Int) : Preserves I (Algebra.limit b target source bound) := by
  refine .forM fun side _ => (h.count _).bind fun size => ?_
  split
  · exact h.insertFrom _ _
  · exact .pure _

theorem insertIds (target : Graph) (side : Side) (ids : List Int) :
    Preserves I (Algebra.insertIds b target side ids) := by
  unfold Algebra.insertIds
  split
  · exact .pure _
  · exact h.perform rfl

/-- A round of a sweep only fills and empties tables. -/
theorem sweep {round : Int → List Statement} (hround : ∀ hop, (round hop).all Statement.keepsTables = true)
    (frontier : String) (rounds : Nat) (hop : Int) :
    Preserves I (Traversal.sweep b round frontier rounds hop) :=
  Traversal.sweep_preserves (fun hop => h.perform (hround hop)) (h.count frontier) rounds hop

end Backend.Respects

/-- An instruction that neither makes a handle nor uses scratch tables sends only statements that keep the
tables. -/
theorem Instruction.execute_respected (h : b.Respects I) {i : Instruction} (hnative : i.isNative = false)
    (hcreation : i.creation? = none) (hscratch : i.scratchNames = []) : Preserves I (i.execute b) := by
  cases i with
  | createGraph | createMetadata => cases hcreation
  | endpoints | subgraph | lineage | path | shortestPath => exact absurd hscratch (List.cons_ne_nil _ _)
  | union | intersect | subtract | distinct | collapse => exact silently_preserves (h.perform rfl)
  | limit => exact silently_preserves (h.limit _ _ _)
  | insertVertices | insertEdges => exact silently_preserves (h.insertIds _ _ _)
  | setMetadata => exact silently_preserves (.forM fun _ _ => h.insertFrom _ _)
  | overwriteMetadata => exact silently_preserves (h.perform rfl)
  | stat => exact (h.selects.stat _).map some
  | exportGraph => exact (h.selects.exportGraph _ _ _ _).map some
  | native => cases hnative

/-! ## What instructions say -/

namespace Backend.MindsScratch

variable {b : Backend (Scratch σ)} {I : Scratch σ → Prop}

theorem createIntegers_bind (h : b.MindsScratch I) {name : String} {columns : List String}
    {next : String → Action (Scratch σ) BackendError α} (hnext : ∀ table, Preserves I (next table)) :
    Preserves I (Scratch.createIntegers b name columns >>= next) :=
  (h.create name _).bind hnext

theorem expand_bind (h : b.MindsScratch I) (subject start : Graph) (depth : Int)
    (direction : Direction) {next : String × String → Action (Scratch σ) BackendError α}
    (hnext : ∀ tables, Preserves I (next tables)) :
    Preserves I (Traversal.expand b subject start depth direction >>= next) := by
  refine .bind ?_ hnext
  refine h.createIntegers_bind fun _ => h.createIntegers_bind fun _ =>
    h.createIntegers_bind fun _ => h.createIntegers_bind fun _ => ?_
  exact (h.respects.perform rfl).bind fun _ => (h.respects.sweep (fun _ => rfl) _ _ _).bind fun _ => .pure _

end Backend.MindsScratch

/-- What an action says: requests only, the last of which drops the scratch tables. -/
def SaysTidily (record : σ → List Exchange) (a : Action σ BackendError α) : Prop :=
  ∀ s, ∃ said, record (a.runFrom s).2 = record s ++ said ∧ (∀ x ∈ said, x.IsRequest) ∧ Tidied said

theorem scratchTables_drop (said : List Exchange) (tables : List String)
    (reply : Except BackendError String) :
    scratchTables (said ++ [executed (.lines (tables.map Statement.discard)) reply])
      = scratchTables said :=
  scratchTables_append_of_none (created?_executed (by simp [Request.lines, Request.scratch?]) reply)

theorem SaysTidily.of_noScratch {a : Action σ BackendError α}
    (h : ∀ old, Preserves (Since record old fun _ => NoScratch) a) : SaysTidily record a := by
  intro s
  obtain ⟨said, hs, hall, hnone⟩ :=
    h (record s) s ⟨[], by simp, fun _ hx => absurd hx List.not_mem_nil, rfl⟩
  exact ⟨said, hs, hall, .inl hnone⟩

/-- What was said when the scratch tables are dropped. -/
theorem finish_tidied (hb : b.Records record) {old : List Exchange} {s : Scratch σ}
    (h : Since (fun s => record s.store) old Remembered s) :
    ∃ said, record ((Scratch.finish b).runFrom s).2.store = old ++ said ∧
      (∀ x ∈ said, x.IsRequest) ∧ Tidied said := by
  obtain ⟨said, (hs : record s.store = old ++ said), hall, htables⟩ := h
  simp only [Scratch.finish, runFrom_bind, runFrom_get, runFrom_set]
  split
  · next hempty =>
    exact ⟨said, hs, hall, .inl (by rw [← htables]; exact List.isEmpty_iff.1 hempty)⟩
  · let r := Request.lines (s.tables.map Statement.discard)
    refine ⟨said ++ [executed r ((b.execute r).runFrom s.store).1], ?_,
      forall_isRequest_append hall trivial, .inr ⟨said, ((b.execute r).runFrom s.store).1, ?_⟩⟩
    · have hrecord := hb.execute r s.store
      rw [hs, List.append_assoc] at hrecord
      rw [← hrecord]
      simp only [Backend.perform, runFrom_along, Scratch.storeLens, runFrom_bind, r]
      split <;> next heq => simp [heq]
    · rw [scratchTables_drop, ← htables]

theorem within_tidied (hb : b.Records record)
    {body : Backend (Scratch σ) → Action (Scratch σ) BackendError α}
    (hbody : ∀ {I}, (b.along Scratch.storeLens).MindsScratch I →
      Preserves I (body (b.along Scratch.storeLens))) :
    SaysTidily record (Scratch.within b body) := by
  intro s
  have hafter := hbody (hb.minds_remembered (record s)) (Scratch.start s)
    ⟨[], by simp [Scratch.start], fun _ hx => absurd hx List.not_mem_nil, rfl⟩
  have hfinish := finish_tidied hb hafter
  simp only [Scratch.within, runFrom_of]
  generalize (body (b.along Scratch.storeLens)).runFrom (Scratch.start s) = x at hfinish
  obtain ⟨result, t⟩ := x
  cases result with
  | error e => exact hfinish
  | ok a =>
    dsimp only at hfinish ⊢
    split <;> next heq => rw [heq] at hfinish; exact hfinish

namespace Instruction

/-- Whatever a store replies, an instruction sends only requests, and the last of these drops the
scratch tables that the others created. -/
theorem execute_tidied (hb : b.Records record) (i : Instruction) :
    SaysTidily record (i.execute b) := by
  have hsilent : ∀ {a : Action σ BackendError Unit}, SaysTidily record a →
      SaysTidily record (execute.silently a) := by
    intro a ha s
    obtain ⟨said, hs, hsaid⟩ := ha s
    refine ⟨said, ?_, hsaid⟩
    rw [← hs, execute.silently, runFrom_bind]
    split <;> next heq => simp [heq]
  have hminds := fun old => hb.minds_noScratch old
  cases i with
  | createGraph target => exact hsilent (.of_noScratch fun old => ((hminds old).execute _ rfl).bind fun _ => .pure _)
  | createMetadata target => exact hsilent (.of_noScratch fun old => ((hminds old).execute _ rfl).bind fun _ => .pure _)
  | endpoints target subject which =>
    exact hsilent (within_tidied hb fun h => h.createIntegers_bind fun _ =>
      (Preserves.forM fun _ _ => h.respects.insertFrom _ _).bind fun _ => h.respects.insertFrom _ _)
  | subgraph target subject skeleton =>
    exact hsilent (within_tidied hb fun h => h.createIntegers_bind fun _ =>
      (h.respects.perform rfl).bind fun _ => h.respects.insertFrom _ _)
  | lineage target subject start depth direction =>
    exact hsilent (within_tidied hb fun h => .forM fun _ _ =>
      h.expand_bind _ _ _ _ fun _ => h.respects.perform rfl)
  | path target subject source destination maxDepth =>
    exact hsilent (within_tidied hb fun h => h.createIntegers_bind fun _ =>
      h.createIntegers_bind fun _ => h.createIntegers_bind fun _ => h.createIntegers_bind fun _ =>
        (h.respects.perform rfl).bind fun _ => (h.respects.sweep (fun _ => rfl) _ _ _).bind fun _ =>
          (h.respects.perform rfl).bind fun _ => (h.respects.sweep (fun _ => rfl) _ _ _).bind fun _ =>
            h.respects.perform rfl)
  | shortestPath target subject source destination maxDepth =>
    exact hsilent (within_tidied hb fun h => h.createIntegers_bind fun _ =>
      (h.respects.insertFrom _ _).bind fun _ => h.createIntegers_bind fun _ => h.createIntegers_bind fun _ =>
        h.createIntegers_bind fun _ => h.createIntegers_bind fun _ => (h.respects.perform rfl).bind fun _ =>
          (h.respects.sweep (fun _ => rfl) _ _ _).bind fun _ => h.createIntegers_bind fun _ =>
            h.createIntegers_bind fun _ => (h.respects.perform rfl).bind fun _ =>
              (h.respects.sweep (fun _ => rfl) _ _ _).bind fun _ => h.respects.perform rfl)
  | native query => exact .of_noScratch fun old => ((hminds old).execute _ rfl).bind fun _ => .pure _
  | _ => exact .of_noScratch fun old => execute_respected (hminds old).respects rfl rfl rfl

end Instruction

end Provenance
