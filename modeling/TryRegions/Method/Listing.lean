import TryRegions.Method.Basic

/-! A method as text: its handlers, live blocks and regions. -/

namespace TryRegions.Method

def regionText (m : Method) (r : RegionId) : String := m.forest.text m.handler r

def handlerText (m : Method) (h : HandlerId) : String := (m.handler h).text

/-- A block, its edges and attributes, then its instructions, a line each. -/
def blockText (m : Method) (b : BlockId) (k : Block) : String :=
  "  " ++ BlockId.label b ++ " @0x" ++ Text.hex k.offset ++
    (if k.flags = {} then "" else " [" ++ k.flags.text ++ "]") ++
    " preds: " ++ BlockId.listing k.preds ++ " succs: " ++ BlockId.listing k.succs ++ "\n" ++
    (match k.handler with
      | some h => "    // handler entry: " ++ m.handlerText h ++ "\n"
      | none => "") ++
    (match k.catches with
      | some c => "    // " ++ c.text m.handler ++ "\n"
      | none => "") ++
    (match k.region with
      | some r => "    // in try #" ++ toString (m.region r).number ++ "\n"
      | none => "") ++
    String.join (k.instrs.map fun i => "    " ++ i.text ++ "\n")

def listing (m : Method) : String :=
  "method " ++ m.name ++ " (enter " ++ BlockId.labelOf m.enter ++ ", exit " ++
    BlockId.labelOf m.exit ++ ") \x7b\n" ++
    (if m.registered.isEmpty then ""
      else
        "  // Handlers:\n" ++
          String.join (m.registered.map fun h => "  //   " ++ m.handlerText h ++ "\n") ++ "\n") ++
    String.join (m.graph.live.map fun b =>
      (m.graph.block? b).elim "" (m.blockText b)) ++
    String.join (m.regions.map fun r => "  " ++ m.regionText r ++ "\n") ++ "\x7d"

end TryRegions.Method
