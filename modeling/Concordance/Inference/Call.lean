import Concordance.Inference.Task

/-!
# Calls

Applying a function binds its parameters to the types of the arguments and evaluates the body. Each shape of
parameter types is evaluated once; a function that is being applied already gives an unknown result.
-/

namespace Concordance

open Syntax (Expr Ident Param)

structure CallArgs where
  positional : List TypeId := []
  keywords : Table String TypeId := {}
  /-- The type of an iterable whose items are arguments. -/
  items : Option TypeId := none
  /-- The type of a mapping whose entries are keyword arguments. -/
  entries : Option TypeId := none
deriving Inhabited

/-- What fills parameters that no argument names. -/
structure Fillers where
  items : Option TypeId
  defaults : Table String TypeId
  entries : Option TypeId

/-- The type of a positional parameter that has no positional argument: its keyword argument, unless it cannot
be named, then an item, its default, an entry. -/
def Fillers.positional (fill : Fillers) (keyword : Option TypeId) (name : String) : TypeId :=
  ((keyword.or fill.items).or ((fill.defaults.get? name).or fill.entries)).getD .unknown

/-- The type of a keyword parameter: its keyword argument, then its default, an entry. -/
def Fillers.keyword (fill : Fillers) (keyword : Option TypeId) (name : String) : TypeId :=
  ((keyword.or (fill.defaults.get? name)).or fill.entries).getD .unknown

/-- Binds positional parameters; each is marked if it cannot be named by a keyword. -/
def bindPositional (fill : Fillers) :
    List (Bool × Param Expr) → List TypeId → Table String TypeId →
      List (Ident × TypeId) × List TypeId × Table String TypeId
  | [], args, keywords => ([], args, keywords)
  | (_, p) :: ps, t :: args, keywords =>
    let (bound, rest) := bindPositional fill ps args keywords
    ((p.name, t) :: bound, rest)
  | (unnamed, p) :: ps, [], keywords =>
    let keyword := if unnamed then none else keywords.get? p.name.text
    let keywords := if unnamed then keywords else keywords.erase p.name.text
    let (bound, rest) := bindPositional fill ps [] keywords
    ((p.name, fill.positional keyword p.name.text) :: bound, rest)

/-- Binds parameters that only keywords reach. Also gives the rest of the keyword arguments. -/
def bindKeywordOnly (fill : Fillers) :
    List (Param Expr) → Table String TypeId → List (Ident × TypeId) × Table String TypeId
  | [], keywords => ([], keywords)
  | p :: ps, keywords =>
    let (bound, rest) := bindKeywordOnly fill ps (keywords.erase p.name.text)
    ((p.name, fill.keyword (keywords.get? p.name.text) p.name.text) :: bound, rest)

/-- The positional arguments with the items of a tuple among them, and what an iterable without a fixed shape
fills further parameters with. -/
def Heap.spreadItems (h : Heap) (args : CallArgs) : List TypeId × Option TypeId :=
  match args.items with
  | none => (args.positional, none)
  | some t => match h.ty t with
    | .tuple es => (args.positional ++ es, none)
    | .list e _ => (args.positional, some e)
    | _ => (args.positional, some .unknown)

def Heap.spreadEntries (h : Heap) (args : CallArgs) : Option TypeId :=
  match args.entries with
  | none => none
  | some t => match h.ty t with
    | .dict _ v => some v
    | _ => none

def takeReceiver (function : Function) (receiver : Option TypeId) (named : List (Bool × Param Expr)) :
    List (Ident × TypeId) × List (Bool × Param Expr) :=
  match receiver, named with
  | some r, (_, p) :: rest => if function.isStatic then ([], named) else ([(p.name, r)], rest)
  | _, _ => ([], named)

/-- Binds the parameter for surplus positional arguments: to a tuple of them, or if there are none to a list of
what fills further parameters. -/
def bindSurplus (surplus : List TypeId) (items : Option TypeId) :
    Option (Param Expr) → HeapM (List (Ident × TypeId))
  | none => return []
  | some p => do
    let t ← if surplus.isEmpty then newList (items.getD .unknown) else newTuple surplus
    return [(p.name, t)]

/-- Binds the parameter for the rest of the keyword arguments: to a dictionary of them and of what fills further
parameters. -/
def bindKeywordSurplus (keywords : Table String TypeId) (entries : Option TypeId) :
    Option (Param Expr) → HeapM (List (Ident × TypeId))
  | none => return []
  | some p => do
    let value ← unionAll keywords.values
    let value ← match entries with
      | some e => union value e
      | none => pure value
    return [(p.name, ← newDict .str value)]

/-- Matches the types of arguments to the parameters of a function, in the order of declaration. -/
def bindParameters (function : Function) (code : Code) (receiver : Option TypeId) (args : CallArgs) :
    HeapM (List (Ident × TypeId)) := do
  let h ← get
  let params := code.params
  let (self, named) := takeReceiver function receiver
    (params.positionalOnly.map (true, ·) ++ params.ordinary.map (false, ·))
  let (positional, items) := h.spreadItems args
  let entries := h.spreadEntries args
  let fill : Fillers := ⟨items, function.defaults, entries⟩
  let (bound, surplus, keywords) := bindPositional fill named positional args.keywords
  let rest ← bindSurplus surplus items params.rest
  let (keywordOnly, keywords) := bindKeywordOnly fill params.keywordOnly keywords
  let keywordRest ← bindKeywordSurplus keywords entries params.keywordRest
  return self ++ bound ++ rest ++ keywordOnly ++ keywordRest

/-- The receiver of an application that has none: when a method is applied without a call, it is its class or
the object that stands for the class. -/
def impliedReceiver (function : Function) : HeapM (Option TypeId) := do
  match function.cls with
  | none => return none
  | some c =>
    if function.isStatic then return none
    else if function.isClassMethod then return some ((← get).cls c).type
    else return some (← canonOf c)

/-- The parameters of an application with their types, and the tuple of the types. -/
def callFrame (function : Function) (code : Code) (receiver : Option TypeId) (args : Option CallArgs) :
    HeapM (List (Ident × TypeId) × TypeId) := do
  let receiver ← match receiver, args with
    | none, none => impliedReceiver function
    | _, _ => pure receiver
  let bound ← bindParameters function code receiver (args.getD {})
  return (bound, ← newTuple (bound.map Prod.snd))

/-- The result of a function whose body gives `result`: a list of what it yielded, if it yielded anything. -/
def yieldedOr (f : FunctionId) (result : TypeId) : Analysis TypeId := do
  match ((← theHeap).function f).yields with
  | some y => newList y
  | none => return result

/-- Binds the parameters of a function in its scope and evaluates its body there. -/
def bodyType (ev : Evaluator) (f : FunctionId) (code : Code) (scope : ScopeId) (bound : List (Ident × TypeId)) :
    Analysis TypeId := do
  bound.forM fun p => discard <| bindIn scope p.1.text (some (code.unit.site p.1)) p.2 .parameter
  let place : Place := ⟨code.unit, scope⟩
  let result ← match code.body with
    | .value e => ev.expr place e
    | .block statements => do stripContinues (← block ev place statements)
  yieldedOr f result

def applyBody (ev : Evaluator) (f : FunctionId) (code : Code) (bound : List (Ident × TypeId)) :
    Analysis TypeId := do
  let stack := (← get).callStack
  let function := (← theHeap).function f
  modify fun s => { s with callStack := f :: stack }
  modifyFunction f fun function => { function with yields := none }
  finallyDo
    (fun s =>
      { s with
        callStack := stack
        heap.functions := s.heap.functions.modify f.index fun g => { g with yields := function.yields } })
    (bodyType ev f code function.table bound)

/-- Applies a function to parameter types that are new to it, and records the result. -/
def applyAnew (ev : Evaluator) (f : FunctionId) (code : Code) (bound : List (Ident × TypeId)) (key : TypeId) :
    Analysis TypeId := do
  let result ← applyBody ev f code bound
  modify fun s => { s with statistics.calls := s.statistics.calls + 1 }
  addArrow f key result
  return result

/-- The result of a function that is marked as applied. One that is being applied already gives nothing. -/
def applyMarked (ev : Evaluator) (f : FunctionId) (receiver : Option TypeId) (args : Option CallArgs) :
    Analysis TypeId := do
  let function := (← theHeap).function f
  if function.native.isSome then return ← nativeResult f
  match function.code with
  | none => return .unknown
  | some code =>
    if f ∈ (← get).callStack then return .unknown
    let (bound, key) ← callFrame function code receiver args
    match (← theHeap).arrow? f key with
    | some result => return result
    | none => applyAnew ev f code bound key

def apply (ev : Evaluator) (f : FunctionId) (receiver : Option TypeId) (args : Option CallArgs) :
    Analysis TypeId := do
  modify fun s => { s with uncalled := s.uncalled.filter (· ≠ f) }
  markCalled f
  applyMarked ev f receiver args

/-- Applies functions to the same receiver and arguments and merges the results. -/
def applyAll (ev : Evaluator) (fs : List FunctionId) (receiver : TypeId) (args : CallArgs) : Analysis TypeId :=
  fs.foldlM (fun acc f => do union acc (← apply ev f (some receiver) (some args))) .unknown

def initialise (ev : Evaluator) (object : TypeId) (args : CallArgs) (bindings : List BindingId) :
    Analysis Unit :=
  bindings.forM fun b => do
    let h ← theHeap
    (h.functionsIn (h.binding b).type).forM fun f => discard <| apply ev f (some object) (some args)

/-- Constructs an object of a class: the value of a class of plain values, or else the object that stands for
the class, after its initialisers have been applied to it. -/
def construct (ev : Evaluator) (c : ClassId) (args : CallArgs) : Analysis TypeId := do
  let cls := (← theHeap).cls c
  match cls.factory with
  | some recipe => build recipe
  | none =>
    let object ← canonOf c
    initialise ev object args (((← theHeap).lookupAttr cls.table "__init__").getD [])
    return object

def callOne (ev : Evaluator) (callee : TypeId) (args : CallArgs) : Analysis TypeId := do
  let h ← theHeap
  match h.ty callee with
  | .function f receiver => apply ev f receiver (some args)
  | .classObject c => construct ev c args
  | .object .. => applyAll ev (h.functionsOf ((h.attrOf callee "__call__").getD [])) callee args
  | _ => return .unknown

def call (ev : Evaluator) (callee : TypeId) (args : CallArgs) : Analysis TypeId := do
  ((← theHeap).members callee).foldlM (fun acc t => do union acc (← callOne ev t args)) .unknown

/-- Calls a method of a type by name, without arguments; none if there is no such method. -/
def callMethod? (ev : Evaluator) (receiver : TypeId) (name : String) : Analysis (Option TypeId) := do
  let h ← theHeap
  match h.functionsOf ((h.attrOf receiver name).getD []) with
  | [] => return none
  | fs => return some (← applyAll ev fs receiver {})

end Concordance
