import Graft.Mapping.Basic

/-!
# Carrying paths across a mapping

A path at or below the root has a counterpart at or below the source, and back. The two ways are
inverse to each other. On the way in, an overlayable mapping steps aside where a node really
exists below its root; the root itself is never overlaid.
-/

namespace Graft.Mapping

/-- The counterpart of `p` when everything at or below `start` is carried to `goal`. -/
def counterpart? (start goal p : Path) : Option Path :=
  if p = start then some goal else (p.below? start).map goal.child

/-- From the root's tree to the source's, whatever really exists there. -/
def toSource? (m : Mapping) (p : Path) : Option Path := counterpart? m.root m.source p

def toRoot? (m : Mapping) (p : Path) : Option Path := counterpart? m.source m.root p

/-- Whether the answer for `p` depends on what really exists there. -/
def asksAbout (m : Mapping) (p : Path) : Bool := m.overlayable && p ≠ m.root && p.isBelow m.root

/-- Where a reader of `p` is sent, when `overlaid` says which nodes really exist. -/
def lookThrough (m : Mapping) (overlaid : Path → Bool) (p : Path) : Option Path :=
  if m.asksAbout p && overlaid p then none else m.toSource? p

/-- Where a reader of `p` is sent, when what really exists has to be asked for. -/
def lookThroughM {n : Type → Type} [Monad n] (m : Mapping) (overlaid : Path → n Bool) (p : Path) :
    n (Option Path) :=
  if m.asksAbout p then do
    return if ← overlaid p then none else m.toSource? p
  else
    return m.toSource? p

/-- Answers as `overlaid` does and writes down what is asked. -/
def recording (overlaid : Path → Bool) (p : Path) : StateM (List Path) Bool := do
  modify (· ++ [p])
  return overlaid p

end Graft.Mapping
