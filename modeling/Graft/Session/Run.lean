import Graft.Session.Step
import Graft.Summary

/-!
# Running a session

A session runs over one repository and one catalog. With settings there is also an engine over both;
then the catalog is the engine's, and it is closed until the engine is activated.

Calls to the board are told in the order in which they were made where a step determines that
order, and by root where it does not.
-/

namespace Graft

namespace Session

inductive Presence where
  | never
  | present
  | dropped
deriving DecidableEq

end Session

/-- A running session. Without settings its engine is a bystander that is never asked. -/
structure Session where
  engine : Engine
  presence : Session.Presence
  /-- The queries of full passes that follow a batch outside the engine. -/
  queries : List String
  /-- Whether the journal refuses to commit. -/
  commitFails : Bool
  journal : List String
  /-- The mappings that were active after the last step. -/
  mappings : List Mapping

namespace Session

def new (settings : Option Settings) (queries : List String) (commitFails : Bool) : Session where
  engine := match settings with
    | some s => .new s
    | none => { Engine.new .standard with catalog := .empty }
  presence := if settings.isSome then .present else .never
  queries
  commitFails
  journal := []
  mappings := []

def withRepository (s : Session) (f : Repository → Repository) : Session :=
  { s with engine := { s.engine with repository := f s.engine.repository } }

def withCatalog (s : Session) (catalog : Catalog) : Session :=
  { s with engine := { s.engine with catalog } }

/-! ## Layers -/

def note (line : String) : StateM (List String) Unit := modify (· ++ [line])

/-- A layer without content that writes down what it is asked. -/
def journalLayer (commitFails : Bool) : Layer (StateM (List String)) where
  resolve p := do
    note s!"resolve {p}"
    return none
  list content := do
    note s!"list {content.path}"
    return []
  create p properties := do
    note s!"create {p}"
    return .ok (.stored ⟨p, properties⟩)
  delete p := do
    note s!"delete {p}"
    if "/locked".toList.isSuffixOf p.chars then return .error (.failed p "locked")
    else return .ok ()
  revert := note "revert"
  commit := do
    note "commit"
    if commitFails then return .error (.failed ⟨['/']⟩ "conflict") else return .ok ()
  hasChanges := return true

def beneath (s : Session) : Beneath → Layer (StateM (List String))
  | .nothing => .bottom
  | .journal => journalLayer s.commitFails
  | .another =>
    .mapped s.engine.catalog s.engine.repository (.ofRepository s.engine.repository)
  | .repository => .ofRepository s.engine.repository

/-- The mapped layer that a request reaches, if there is one. A request that goes through the engine
waits for it to be active; where no engine stands in between, there always is one. -/
def layer? (s : Session) (base : Beneath) (throughEngine : Bool) :
    Option (Layer (StateM (List String))) :=
  if throughEngine && s.presence = .present then s.engine.layer? (s.beneath base)
  else some (.mapped s.engine.catalog s.engine.repository (s.beneath base))

def ask (s : Session) (layer : Layer (StateM (List String))) (request : Request) :
    StateM (List String) Reply := do
  match request with
  | .resolve p => return .content (← layer.resolve p)
  | .shown p => return .content (s.engine.repository.shownAt s.engine.catalog p)
  | .covering p => return .mapping (s.engine.catalog.covering p)
  | .childrenOf p =>
    match ← layer.resolve p with
    | none => return .contents none
    | some content => return .contents (some (← layer.list content))
  | .list content => return .contents (some (← layer.list content))
  | .create p properties =>
    match ← layer.create p properties with
    | .ok content => return .content (some content)
    | .error e => return .failure (.write e)
  | .delete p =>
    match ← layer.delete p with
    | .ok () => return .nothing
    | .error e => return .failure (.write e)
  | .revert => do
    layer.revert
    return .nothing
  | .commit =>
    match ← layer.commit with
    | .ok () => return .nothing
    | .error e => return .failure (.write e)
  | .hasChanges => return .flag (← layer.hasChanges)

def summary (s : Session) : Part → String
  | .catalog => s.engine.catalog.summary
  | .repository => s.engine.repository.summary
  | .follower => s.engine.catalog.followerSummary s.queries
  | .layer base throughEngine =>
    if (s.layer? base throughEngine).isSome then
      "Some(" ++ s.engine.catalog.layerSummary (base ≠ .nothing) ++ ")"
    else "None"
  | .engine => if s.presence = .present then "Some(" ++ s.engine.summary ++ ")" else "None"

/-! ## Steps -/

def replyWith {ε α : Type} (failure : ε → Failure) (reply : α → Reply) : Except ε α → Reply
  | .ok a => reply a
  | .error e => .failure (failure e)

def statusOf (e : Engine) : Status where
  enabled := e.settings.enabled
  active := e.active.isSome
  initialized := e.isInitialized
  bootstrap := e.bootstrap
  mappings := e.catalog.mappings
  connections := e.repository.connections
  subscriptions := e.repository.subscriptions.length
  isSealed := e.catalog.isSealed

def registerEach (c : Catalog) (declarations : List Declaration) : Catalog × Report :=
  declarations.foldl (fun (c, report) d =>
    let (c, outcome) := c.register d
    (c, report.count outcome)) (c, .blank)

/-- Carries out a step on the repository, the catalog or the layers above. -/
def answerPlain (s : Session) (step : Step) : Session × Reply × List Delivery :=
  let repository := s.engine.repository
  let catalog := s.engine.catalog
  let same (reply : Reply) := (s, reply, [])
  match step with
  | .edit edit =>
    let (engine, told) := s.engine.transact (fun _ => .asListed) [edit]
    ({ s with engine }, .nothing, told)
  | .transact edits =>
    let (engine, told) := s.engine.transact (fun _ => .asListed) edits
    ({ s with engine }, .count edits.length, told)
  | .failReads on => (s.withRepository ({ · with failing := on }), .nothing, [])
  | .refuseConnections on => (s.withRepository ({ · with refusing := on }), .nothing, [])
  | .node p => same (replyWith .repository .node (repository.node? p))
  | .has p => same (replyWith .repository .flag (repository.has p))
  | .property p name => same (replyWith .repository .value (repository.property? p name))
  | .children p => same (replyWith .repository .nodes (repository.children p))
  | .search query => same (replyWith .repository .paths (repository.search query))
  | .connect =>
    match repository.connect with
    | .ok r => (s.withRepository fun _ => r, .count r.connections, [])
    | .error e => same (.failure (.repository e))
  | .disconnect =>
    let r := repository.close
    (s.withRepository fun _ => r, .count r.connections, [])
  | .subscribe scope =>
    match repository.subscribe scope with
    | .ok (r, id) => (s.withRepository fun _ => r, .count id, [])
    | .error e => same (.failure (.repository e))
  | .unsubscribe id => (s.withRepository (·.unsubscribe id), .nothing, [])
  | .counts => same (.counts repository.connections repository.subscriptions.length)
  | .board => same (.board catalog.board)
  | .register d =>
    let (c, outcome) := catalog.register d
    (s.withCatalog c, .outcome outcome, [])
  | .apply root source overlayable =>
    match Mapping.between root source overlayable with
    | .error flaw => same (.failure (.flaw flaw))
    | .ok m =>
      let (c, outcome) := catalog.install m
      (s.withCatalog c, .outcome outcome, [])
  | .unregister root =>
    let (c, wasActive) := catalog.unregister root
    (s.withCatalog c, .flag wasActive, [])
  | .lookup root => same (.lookup (catalog.lookup root))
  | .size => same (.size catalog.size catalog.isSealed)
  | .clear =>
    let (c, n) := catalog.clear .asListed
    (s.withCatalog c, .count n, [])
  | .close => (s.withCatalog catalog.close, .nothing, [])
  | .reopen => (s.withCatalog catalog.reopen, .nothing, [])
  | .registerAll lists =>
    let (c, report) := registerEach catalog lists.flatten
    (s.withCatalog c, .tally report.applied report.skipped report.rejected, [])
  | .declaration p => same (.declaration (repository.declaration p))
  | .declaring queries => same (replyWith .pass .paths (repository.declaring queries))
  | .pass queries stopAt =>
    let (c, result) := catalog.pass repository queries fun n => stopAt.any (· ≤ n)
    (s.withCatalog c, replyWith .pass .report result, [])
  | .plan batch => same (.plan (Plan.of catalog batch))
  | .follow batch =>
    let (c, result) := catalog.follow .asListed repository s.queries batch
    (s.withCatalog c, replyWith .pass .batch result, [])
  | .followQuietly batch =>
    let (c, result) := catalog.follow .asListed repository s.queries batch
    (s.withCatalog c, match result with
      | .ok outcome => .batch outcome
      | .error _ => .nothing, [])
  | .lookThrough root source overlayable p =>
    match Mapping.between root source overlayable with
    | .error flaw => same (.failure (.flaw flaw))
    | .ok m => same (.path (m.lookThrough repository.overlays p))
  | .layer base throughEngine request =>
    match s.layer? base throughEngine with
    | some layer =>
      let (reply, journal) := (s.ask layer request).run s.journal
      ({ s with journal }, reply, [])
    | none => same .inactive
  | .journal => ({ s with journal := [] }, .journal s.journal, [])
  | .summary part => same (.text (s.summary part))
  | _ => same (.failure .noEngine)

def answerEngine (s : Session) (step : Step) : Session × Reply :=
  match step with
  | .activate =>
    let (engine, result) := s.engine.activate
    ({ s with engine }, match result with
      | .ok () => .bootstrap engine.bootstrap
      | .error (.entry e) => .failure (.entry e)
      | .error (.repository e) => .failure (.repository e))
  | .deactivate => ({ s with engine := s.engine.deactivate .asListed }, .nothing)
  | .shutdown =>
    let (engine, ending) := s.engine.shutdown .asListed
    ({ s with engine }, .ending ending)
  | .status => (s, .status (statusOf s.engine))
  | .settings => (s, .settings s.engine.settings)
  | .wait => (s, if s.engine.isPending then .pending else .flag s.engine.isInitialized)
  | .drop => ({ s with engine := s.engine.deactivate .asListed, presence := .dropped }, .nothing)
  | .quota n => ({ s with engine := { s.engine with quota := some n } }, .nothing)
  | .gate gate => ({ s with engine := { s.engine with gate := some gate } }, .nothing)
  | .release => ({ s with engine := s.engine.release }, .nothing)
  | _ => (s, .failure .noEngine)

def Step.isForEngine : Step → Bool
  | activate | deactivate | shutdown | status | settings | wait | drop => true
  | quota _ | gate _ | release => true
  | _ => false

/-- Whether a step can be carried out after the engine is gone. -/
def Step.outlivesEngine : Step → Bool
  | quota _ | gate _ | release => true
  | _ => false

/-- Whether a step makes its calls to the board in one determined order. -/
def Step.ordersCalls : Step → Bool
  | register _ | apply .. | unregister _ | pass .. | activate | release => true
  | _ => false

/-- Carries out a step, without a look at what happened beside it. -/
def reply (s : Session) (step : Step) : Session × Reply × List Delivery :=
  if step.isForEngine then
    if s.presence = .present ∨ (s.presence = .dropped ∧ step.outlivesEngine) then
      let (s, reply) := s.answerEngine step
      (s, reply, [])
    else (s, .failure .noEngine, [])
  else s.answerPlain step

/-- The calls to a board since it had `n` of them, with the numbers of their publications. -/
def callsSince (n : Nat) (board : Board) : List (Board.Call × Nat) :=
  (board.calls.drop n).map fun call => (call, board.ordinal call)

def step (s : Session) (step : Step) : Session × Answer :=
  let (next, reply, told) := s.reply step
  let calls := callsSince s.engine.catalog.board.calls.length next.engine.catalog.board
  let mappings := next.engine.catalog.mappings
  ({ next with mappings }, {
    reply
    told
    calls := if step.ordersCalls then calls else calls.mergeSort fun a b => a.1.root ≤ b.1.root
    mappings := if mappings = s.mappings then none else some mappings })

def run : Session → List Step → List Answer
  | _, [] => []
  | s, first :: rest =>
    let (next, answer) := s.step first
    answer :: run next rest

end Session

end Graft
