import SignatureLayers.Directive
import SignatureLayers.Merge.Engine

namespace SignatureLayers.Merge

/-- Moves the children of a sibling that stand in for the moved declaration and its anchor. -/
def syncSibling (moved : Ref) (name anchor : String) (after : Bool) (sibling : Decl) :
    Merge Unit := do
  if sibling.id = moved.id || !sibling.isContainer then return
  let children := sibling.children
  match children.findIdx? (·.name == name), children.findIdx? (·.name == anchor) with
  | some source, some target =>
    if source = target then return
    let o := Owner.container sibling.id
    moveBeside o source target after
    match children[source]? with
    | some d => reportMoved o d.key
    | none => return
  | _, _ => return

def relocate (o : Owner) (existing : Entry) (d : Decl) (side : Side) (anchor : String) :
    Merge Unit := do
  match ← lift ((← get).index.findSibling o anchor) with
  | none => notify [.positionKept (← qualifiedName o d) anchor]
  | some target =>
    if target.node.id = existing.node.id then
      notify [.positionKept (← qualifiedName o d) anchor]
    else
      let after := side == .after
      moveBeside o (← positionOf existing) (← positionOf target) after
      let location ← locationOf target.node
      change existing.node (·.withLocation location)
      reportMoved o d.key
      if (← get).syncStandIns then
        (← childrenOf o).forM (syncSibling existing.node d.name anchor after)

end SignatureLayers.Merge
