import DefUse.Graph.Slice
import DefUse.Registers

namespace DefUse

structure TaintClient where
  name : String
  isSource : Location → Bool

namespace TaintClient

/-- Every location that shares a byte with one of the sources. -/
def overlapping (name : String) (sources : List Location) : TaintClient where
  name
  isSource l := sources.any (·.overlaps l)

/-- Every location of one space. -/
def within (name : String) (space : Space) : TaintClient where
  name
  isSource l := l.space = space

/-- The registers that carry the arguments of a call. -/
def arguments : TaintClient :=
  overlapping "args" (["RDI", "RSI", "RDX", "RCX", "R8", "R9"].filterMap Registers.x8664.location?)

def builtin : List TaintClient :=
  [arguments, within "registers" .register, within "memory" .ram]

def ofName? (name : String) : Option TaintClient :=
  builtin.find? (·.name = name)

end TaintClient

namespace Graph

/-- The entry values that the client names. -/
def taintSources (g : Graph) (client : TaintClient) : List ValueId :=
  g.values.list.filterMap fun (v, value) =>
    match value.origin with
    | .entry location => if client.isSource location then some v else none
    | _ => none

/-- All values that depend on a source, in order of creation. -/
def tainted (g : Graph) (client : TaintClient) : List ValueId :=
  g.forwardSlice (g.taintSources client)

end Graph
end DefUse
