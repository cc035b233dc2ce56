import Breadboard.Bits
import Breadboard.Netlist.Basic
import Breadboard.Evaluation.Stack

namespace Breadboard

/-- The state of the evaluation of one netlist in one tick. -/
structure Context where
  cached : NodeMap Bits := ∅
  processing : WalkStack := ∅
  nested : NodeMap Context := ⟨[]⟩
  pins : NodeMap Bool := ∅

namespace Context

instance : EmptyCollection Context := ⟨{}⟩
instance : Inhabited Context := ⟨∅⟩

def withPins (pins : List (NodeId × Bool)) : Context := { pins := NodeMap.ofList pins }

/-- The cached value of a link. -/
def output? (ctx : Context) (link : Link) : Option Bool :=
  (ctx.cached.get? link.node).bind (·[link.output]?)

def cache (ctx : Context) (id : NodeId) (outputs : Bits) : Context :=
  { ctx with cached := ctx.cached.insert id outputs }

def setPin (ctx : Context) (id : NodeId) (value : Bool) : Context :=
  { ctx with pins := ctx.pins.insert id value }

def setPins (ctx : Context) (ids : List NodeId) (values : Bits) : Context :=
  (ids.zip values).foldl (fun ctx (id, value) => ctx.setPin id value) ctx

/-- Keep the context of a placed hierarchical gate. -/
def setNested (ctx : Context) (id : NodeId) (inner : Context) : Context :=
  { ctx with nested := ctx.nested.insert id inner }

/-- Put a node on the walk. -/
def enter (ctx : Context) (id : NodeId) : Context :=
  { ctx with processing := (ctx.processing.push id).2 }

/-- Take the latest node off the walk. -/
def leave (ctx : Context) : Context := { ctx with processing := ctx.processing.pop.2 }

theorem cached_cache (ctx : Context) (id : NodeId) (outputs : Bits) (id' : NodeId) :
    (ctx.cache id outputs).cached.get? id' =
      if id = id' then some outputs else ctx.cached.get? id' :=
  NodeMap.get?_insert ctx.cached id outputs id'

theorem nested_setNested (ctx : Context) (id : NodeId) (inner : Context) (id' : NodeId) :
    (ctx.setNested id inner).nested.get? id' =
      if id = id' then some inner else ctx.nested.get? id' :=
  NodeMap.get?_insert ctx.nested id inner id'

theorem pins_setPin (ctx : Context) (id : NodeId) (value : Bool) (id' : NodeId) :
    (ctx.setPin id value).pins.get? id' = if id = id' then some value else ctx.pins.get? id' :=
  NodeMap.get?_insert ctx.pins id value id'

end Context

end Breadboard
