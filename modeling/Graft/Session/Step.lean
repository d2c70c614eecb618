import Graft.Engine
import Graft.Layer

/-!
# Steps of a session

A session is a list of steps, each of which asks one thing of a repository, its catalog, the
engine that may keep the two in step, or the layers above them. Every step has an answer: a reply,
and what happened beside it.
-/

namespace Graft.Session

inductive Beneath where
  | nothing
  /-- A layer without content that keeps a journal of what it is asked. -/
  | journal
  /-- Another mapped layer, which stands on the repository. -/
  | another
  | repository
deriving DecidableEq

inductive Request where
  | resolve (path : Path)
  /-- Like `resolve`, but only content that a mapping shows. -/
  | shown (path : Path)
  | covering (path : Path)
  /-- What is listed below the content at a path. -/
  | childrenOf (path : Path)
  /-- What is listed below content that the caller made up. -/
  | list (content : Content)
  | create (path : Path) (properties : Properties)
  | delete (path : Path)
  | revert
  | commit
  | hasChanges

inductive Part where
  | catalog
  | repository
  | follower
  | layer (beneath : Beneath) (throughEngine : Bool)
  | engine

inductive Step where
  | edit (edit : Edit)
  | transact (edits : List Edit)
  | failReads (on : Bool)
  | refuseConnections (on : Bool)
  | node (path : Path)
  | has (path : Path)
  | property (path : Path) (name : String)
  | children (path : Path)
  | search (query : Query)
  | connect
  | disconnect
  | subscribe (scope : Path)
  | unsubscribe (id : Nat)
  | counts
  | board
  | register (declaration : Declaration)
  | apply (root source : Path) (overlayable : Bool)
  | unregister (root : Path)
  | lookup (root : Path)
  | size
  | clear
  | close
  | reopen
  /-- Registers several lists of declarations, which agree wherever they meet. -/
  | registerAll (lists : List (List Declaration))
  | declaration (path : Path)
  | declaring (queries : List String)
  | pass (queries : List String) (stopAt : Option Nat)
  | plan (batch : List Change)
  | follow (batch : List Change)
  /-- Like `follow`, but without a word about failures. -/
  | followQuietly (batch : List Change)
  | lookThrough (root source : Path) (overlayable : Bool) (path : Path)
  | layer (beneath : Beneath) (throughEngine : Bool) (request : Request)
  | journal
  | summary (part : Part)
  | activate
  | deactivate
  | shutdown
  | status
  | settings
  | wait
  | drop
  | quota (n : Nat)
  | gate (gate : Pass.Gate)
  | release

/-- Why a step has no reply of its own kind. -/
inductive Failure where
  | flaw (flaw : Flaw)
  | repository (error : Repository.Error)
  | pass (error : PassError)
  | entry (error : Settings.EntryError)
  | write (error : WriteError)
  /-- There is no engine to ask. -/
  | noEngine

structure Status where
  enabled : Bool
  active : Bool
  initialized : Bool
  bootstrap : Engine.Bootstrap
  mappings : List Mapping
  connections : Nat
  subscriptions : Nat
  isSealed : Bool

inductive Reply where
  | nothing
  | failure (failure : Failure)
  | flag (b : Bool)
  | count (n : Nat)
  | text (s : String)
  | path (p : Option Path)
  | paths (l : List Path)
  | value (v : Option Value)
  | node (n : Option Stored)
  | nodes (l : List Stored)
  | content (c : Option Content)
  | contents (l : Option (List Content))
  | mapping (m : Option Mapping)
  | lookup (m : Option Mapping)
  | counts (connections subscriptions : Nat)
  | board (board : Board)
  | outcome (o : Catalog.Outcome)
  | size (n : Nat) (isSealed : Bool)
  | tally (applied skipped rejected : Nat)
  | declaration (d : Declaration)
  | report (r : Report)
  | plan (p : Plan)
  | batch (o : Batch.Outcome)
  | journal (lines : List String)
  | bootstrap (b : Engine.Bootstrap)
  | ending (e : Option Ending)
  | status (s : Status)
  | settings (s : Settings)
  /-- The engine is not active. -/
  | inactive
  /-- The first pass has yet to end. -/
  | pending

structure Answer where
  reply : Reply
  /-- What the session's own subscribers were told, in order. -/
  told : List Delivery
  /-- The calls to the board, each with the number of its publication at its root. -/
  calls : List (Board.Call × Nat)
  /-- The active mappings, if they are others than before. -/
  mappings : Option (List Mapping)

end Graft.Session
