import SlotScript.Machine.Eval

/-!
# A vocabulary for embedding programs

Builtins for arithmetic, lists, texts, control flow, local contexts and the lifetime of slots.
Together they reach every operation of a machine from command text.

An argument that has to be an index or a count is a number; it is cut to a natural number, and what
is negative or not a number counts as zero.
-/

namespace SlotScript.Workbench

open Routine

variable {β : Type}

/-- A builtin of the vocabulary. -/
inductive Command where
  | add | set | choose | nothing | call | recurse | spawn | keep | sum | mul | list | quote | push
  | nth | dup | free | tree | evals | evalin | unset | concat | substr | words | depth | fail | kind
  | str | int | iadd | pin | unpin | sequence | iterate | attempt
  deriving DecidableEq, Repr

namespace Command

def name : Command → String
  | .add => "add"
  | .set => "set"
  | .choose => "if"
  | .nothing => "nothing"
  | .call => "call"
  | .recurse => "recurse"
  | .spawn => "spawn"
  | .keep => "keep"
  | .sum => "sum"
  | .mul => "mul"
  | .list => "list"
  | .quote => "quote"
  | .push => "push"
  | .nth => "nth"
  | .dup => "dup"
  | .free => "free"
  | .tree => "tree"
  | .evals => "evals"
  | .evalin => "evalin"
  | .unset => "unset"
  | .concat => "concat"
  | .substr => "substr"
  | .words => "words"
  | .depth => "depth"
  | .fail => "fail"
  | .kind => "kind"
  | .str => "str"
  | .int => "int"
  | .iadd => "iadd"
  | .pin => "pin"
  | .unpin => "unpin"
  | .sequence => "do"
  | .iterate => "repeat"
  | .attempt => "try"

/-- The builtins in the order in which they are bound. -/
def all : List Command :=
  [.add, .set, .choose, .nothing, .call, .recurse, .spawn, .keep, .sum, .mul, .list, .quote, .push,
    .nth, .dup, .free, .tree, .evals, .evalin, .unset, .concat, .substr, .words, .depth, .fail,
    .kind, .str, .int, .iadd, .pin, .unpin, .sequence, .iterate, .attempt]

def ofName? (name : String) : Option Command :=
  all.find? fun c => c.name = name

end Command

/-- Evaluates an argument that has to be a number and cuts it to a natural number. -/
def countArg (s : Slot) : Routine β Nat := do
  pure (← numberArg s).toUInt64.toNat

/-- Retains a slot and gives it to the embedding program. -/
def handOut (s : Slot) : Routine β (Option Slot) := do
  expect (← ask (.retain s))
  ask (.handOver s)
  pure none

def optionalArg (s : Slot) : Routine β (Option Slot) :=
  tryCatch (some <$> argument s) fun
    | .noValue => pure none
    | e => throw e

/-- Evaluates an argument `n` times and gives the last value. -/
def iterate (s : Slot) : Nat → Routine β (Option Slot)
  | 0 => pure none
  | 1 => some <$> argument s
  | n + 1 => do
    let _ ← argument s
    iterate s n

def routine (c : Command) (args : List Slot) : Routine β (Option Slot) :=
  match c, args with
  | .add, [a, b] => do
    let x ← numberArg a
    let y ← numberArg b
    give (.number (x + y))
  | .set, [target, source] => do
    let name ← symbolName target
    let v ← argument source
    let _ ← assign name v
    pure (some v)
  | .choose, [condition, yes, no] => do
    let x ← numberArg condition
    some <$> argument (if x == 0 then no else yes)
  | .nothing, _ => pure none
  | .call, [source, body] => do
    let v ← argument source
    some <$> argumentIn (Bindings.empty.assign "arg" v).2 body
  | .recurse, _ => eval "recurse"
  | .spawn, _ => do handOut (← allocate (.number 99))
  | .keep, [a] => do
    let v ← argumentIn .empty a
    handOut (← expect (← ask (.duplicate v)))
  | .sum, args => do
    atLeast "sum" args 2
    give (.number (← sumArgs 0 args))
  | .mul, [a, b] => do
    let x ← numberArg a
    let y ← numberArg b
    give (.number (x * y))
  | .list, args => do give (.list (← arguments args))
  | .quote, [a] => pure (some a)
  | .push, [list, item] => do
    let l ← argument list
    let x ← argument item
    expect (← ask (.push l x))
    pure (some l)
  | .nth, [list, index] => do
    let l ← argument list
    let i ← countArg index
    let items ← expect (← value l).asList
    match items[i]? with
    | some item => pure (some item)
    | none => throw (.badIndex i items.length)
  | .dup, [a] => do
    let s ← expect (← ask (.duplicate (← argument a)))
    pure (some s)
  | .free, [a] => do
    expect (← ask (.release (← argument a)))
    pure none
  | .tree, [a] => do
    ask (.releaseTree (← argument a))
    pure none
  | .evals, [a] => do eval (← textArg a)
  | .evalin, [a] => do evalIn .empty (← textArg a)
  | .unset, [target] => do remove (← symbolName target)
  | .concat, [a, b] => do
    let s ← textArg a
    let t ← textArg b
    give (.text (s ++ t))
  | .substr, [a, start, stop] => do
    let s ← textArg a
    let i ← countArg start
    let j ← countArg stop
    match Text.slice s.toList i j with
    | .ok t => give (.text (.ofList t))
    | .error e => throw (.badRange e)
  | .words, [a] => do
    match Syntax.words (← textArg a).toList with
    | .ok ws => give (.list (← forEach (fun w => allocate (.text (.ofList w))) ws))
    | .error e => throw (.unterminated e)
  | .depth, _ => do give (.number (.ofNat (← ask .depth)))
  | .fail, [a] => do throw (.failed (← textArg a))
  | .kind, [a] => do give (.text (← value (← argument a)).kind.name)
  | .str, [a] => do give (.text (← render (← argument a)))
  | .int, [a] => do give (.integer (← numberArg a).toInt64)
  | .iadd, [a, b] => do
    let s ← argument a
    let t ← argument b
    let i ← expect (← value s).asInteger
    let j ← expect (← value t).asInteger
    give (.integer (i + j))
  | .pin, [a] => do
    let s ← argument a
    expect (← ask (.retain s))
    pure (some s)
  | .unpin, [a] => do
    let was ← ask (.unretain (← argument a))
    give (.number (if was then 1 else 0))
  | .sequence, args => args.foldlM (fun _ arg => optionalArg arg) none
  | .iterate, [count, body] => do
    let n ← countArg count
    iterate body (min n 100)
  | .attempt, [a, b] => do
    tryCatch (some <$> argument a) fun _ => some <$> argument b
  | .choose, args | .substr, args => arityError c.name 3 args
  | .keep, args | .quote, args | .dup, args | .free, args | .tree, args | .evals, args
  | .evalin, args | .unset, args | .words, args | .fail, args | .kind, args | .str, args
  | .int, args | .pin, args | .unpin, args => arityError c.name 1 args
  | .add, args | .set, args | .call, args | .mul, args | .push, args | .nth, args
  | .concat, args | .iadd, args | .iterate, args | .attempt, args => arityError c.name 2 args

end SlotScript.Workbench
