/-!
How sources are read and trees are rendered. A tab is never narrower than one column.
-/

namespace RstPress

theorem usualTabWidth_pos : 0 < 8 := by decide

structure ReadOptions where
  strict : Bool := false
  tabWidth : Nat := 8
  tabWidth_pos : 0 < tabWidth := by exact usualTabWidth_pos

/-- Sets the tab width; zero counts as one. -/
def ReadOptions.withTabWidth (width : Nat) (options : ReadOptions) : ReadOptions :=
  { options with tabWidth := max 1 width, tabWidth_pos := by omega }

/-- Several sources can be rendered in parallel, or one after another. -/
structure RenderOptions where
  indent : Nat := 2
  parallel : Bool := true

end RstPress
