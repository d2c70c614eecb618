import Graft.Proofs.Catalog.Declared

/-!
# Nodes that go astray

A candidate is read from its node and registered later. If the node has changed in between, the
catalog has at its root what was declared once: the node has gone astray (`strayed`). It comes back in
line when something is registered from it again.

A record of the nodes that are astray is kept along with the catalog. It is right for one node or
another if the node is in line exactly when it is not in the record, and a move can only make it right
or leave everything about the node as it was (`Drifts`). That is enough to keep what holds of the nodes
outside the record.
-/

namespace Graft

/-- The nodes that are astray once `d` is registered, if the given ones were before. -/
def Repository.strayed (r : Repository) (astray : List Path) (d : Declaration) : List Path :=
  if d.mapping.toOption = (r.declaration d.node).mapping.toOption then astray.filter (· ≠ d.node)
  else d.node :: astray

namespace Catalog

variable {c c' : Catalog} {r r' : Repository} {astray astray' : List Path} {p : Path}

/-- The catalog has at `p` what the node there declares. -/
def InLineAt (c : Catalog) (r : Repository) (p : Path) : Prop :=
  c.lookup p = (r.declaration p).mapping.toOption

/-- The nodes in the record are out of line, and what is active elsewhere is declared. -/
structure SoundBut (c : Catalog) (r : Repository) (astray : List Path) : Prop where
  off : ∀ p ∈ astray, ¬ c.InLineAt r p
  sound : ∀ p, p ∉ astray → c.lookup p = none ∨ c.InLineAt r p

/-- For each node the record is right now, or the node, its root and the record of it are as they
were. -/
def Drifts (r : Repository) (c : Catalog) (astray : List Path) (r' : Repository) (c' : Catalog)
    (astray' : List Path) : Prop :=
  ∀ p, (c'.InLineAt r' p ↔ p ∉ astray') ∨
    (c'.lookup p = c.lookup p ∧ r'.declaration p = r.declaration p ∧ (p ∈ astray' ↔ p ∈ astray))

namespace Drifts

variable (h : Drifts r c astray r' c' astray')

include h

theorem inLineAt (hp : p ∉ astray → c.InLineAt r p) (hp' : p ∉ astray') : c'.InLineAt r' p := by
  rcases h p with hnow | ⟨hlook, hdeclared, hrecord⟩
  · exact hnow.2 hp'
  · rw [InLineAt, hlook, hdeclared]
    exact hp fun hmem => hp' (hrecord.2 hmem)

theorem soundBut (hsound : c.SoundBut r astray) : c'.SoundBut r' astray' where
  off := by
    intro p hp
    rcases h p with hnow | ⟨hlook, hdeclared, hrecord⟩
    · exact fun hline => hnow.1 hline hp
    · rw [InLineAt, hlook, hdeclared]
      exact hsound.off p (hrecord.1 hp)
  sound := by
    intro p hp
    rcases h p with hnow | ⟨hlook, hdeclared, hrecord⟩
    · exact Or.inr (hnow.2 hp)
    · rw [InLineAt, hlook, hdeclared]
      exact hsound.sound p fun hmem => hp (hrecord.2 hmem)

end Drifts

theorem drifts_refl (r : Repository) (c : Catalog) (astray : List Path) :
    Drifts r c astray r c astray := fun _ => Or.inr ⟨rfl, rfl, Iff.rfl⟩

/-- A registration makes the record right for the node that it is about. -/
theorem inLineAt_register_iff (h : c.Open) {d : Declaration} (hd : d.OwnRoot) (r : Repository)
    (astray : List Path) :
    (c.register d).1.InLineAt r d.node ↔ d.node ∉ r.strayed astray d := by
  rw [InLineAt, h.lookup_register hd, if_pos rfl, Repository.strayed]
  split
  · next hline => simp [hline]
  · next hoff => simp [hoff]

theorem drifts_register (h : c.Open) {d : Declaration} (hd : d.OwnRoot) (r : Repository)
    (astray : List Path) : Drifts r c astray r (c.register d).1 (r.strayed astray d) := by
  intro p
  by_cases hp : p = d.node
  · rw [hp]
    exact Or.inl (inLineAt_register_iff h hd r astray)
  · right
    refine ⟨?_, rfl, ?_⟩
    · rw [h.lookup_register hd, if_neg hp]
    · rw [Repository.strayed]
      split
      · simp [hp]
      · simp [hp]

end Catalog

end Graft
