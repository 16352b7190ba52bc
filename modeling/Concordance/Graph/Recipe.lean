import Concordance.Document
import Concordance.Graph.Basic

/-!
# Reading types

Types as documents: a text names a type that exists once, a table describes a new container or union.
-/

namespace Concordance

def singletons : List (String × TypeId) :=
  [("?", .unknown), ("<cont>", .continues), ("None", .none), ("bool", .bool), ("int", .int), ("float", .float),
    ("complex", .complex), ("str", .str), ("bytes", .bytes)]

def singleton (name : String) : TypeId := ((singletons.find? fun s => s.1 == name).map Prod.snd).getD .unknown

namespace Recipe

def read : Nat → Document → Recipe
  | _, .text s => .existing (singleton s)
  | fuel + 1, .table [("list", e)] => .list (read fuel e)
  | fuel + 1, .table [("tuple", .list es)] => .tuple (es.map (read fuel))
  | fuel + 1, .table [("dict", .list [k, v])] => .dict (read fuel k) (read fuel v)
  | fuel + 1, .table [("union", .list ms)] => .union (ms.map (read fuel))
  | fuel + 1, .table [("rawunion", .list ms)] => .rawUnion (ms.map (read fuel))
  | _, _ => .existing .unknown

def ofDocument (d : Document) : Recipe := read d.depth d

end Recipe

end Concordance
