/-
TOML values, and how the tables of a document grow.

A table remembers how it came to be, since that decides who may add to it: a
table that only lies on the way to another one may still be opened by a header,
a table that dotted keys made grows through dotted keys only, and a table that
a header opened is never opened again.
-/
namespace CodeMap

/-- How a table came to be. -/
inductive TableOrigin where
  /-- On the way to a table that a header opened. -/
  | onTheWay
  /-- Made by a dotted key. -/
  | dotted
  /-- Opened by a header, or the document itself. -/
  | header
  deriving DecidableEq, Repr

/-- A value. Numbers that are not whole, and dates, are kept as written. -/
inductive Toml where
  | string (text : String)
  | integer (value : Int)
  | float (text : String)
  | boolean (value : Bool)
  | datetime (text : String)
  | array (items : List Toml)
  | inlineTable (entries : List (String × Toml))
  | table (origin : TableOrigin) (entries : List (String × Toml))
  /-- Tables that `[[...]]` headers opened, in order. -/
  | tables (items : List Toml)
  deriving Inhabited, Repr

namespace Toml

/-- An empty document. -/
def empty : Toml := table .header []

/-- Puts a value under a key, over one that is there. -/
def replaceEntry (key : String) (value : Toml) : List (String × Toml) → List (String × Toml)
  | [] => [(key, value)]
  | (k, v) :: rest => if k = key then (k, value) :: rest else (k, v) :: replaceEntry key value rest

/-- Adds a value under a new key. -/
def addEntry (key : String) (value : Toml) : Toml → Option Toml
  | table origin entries =>
    if (entries.lookup key).isSome then none else some (table origin (entries ++ [(key, value)]))
  | _ => none

/-- Changes the table at the end of a path. Tables that are missing on the way
are made; `viaDots` says that the path is part of a dotted key. -/
def adjust (viaDots : Bool) (change : Toml → Option Toml) : List String → Toml → Option Toml
  | [], t => change t
  | key :: path, table origin entries =>
    let replaced (v : Toml) : Toml := table origin (replaceEntry key v entries)
    match entries.lookup key with
    | none =>
      let fresh := table (if viaDots then .dotted else .onTheWay) []
      (adjust viaDots change path fresh).map replaced
    | some (table .header inner) =>
      if viaDots then none
      else (adjust viaDots change path (table .header inner)).map replaced
    | some (table o inner) => (adjust viaDots change path (table o inner)).map replaced
    | some (tables items) =>
      match items.getLast? with
      | some last =>
        (adjust viaDots change path last).map fun t => replaced (tables (items.dropLast ++ [t]))
      | none => none
    | some _ => none
  | _ :: _, _ => none

/-- Opens the table that a header names. -/
def openTable (key : String) : Toml → Option Toml
  | table origin entries =>
    match entries.lookup key with
    | none => some (table origin (entries ++ [(key, table .header [])]))
    | some (table .onTheWay inner) =>
      some (table origin (replaceEntry key (table .header inner) entries))
    | some _ => none
  | _ => none

/-- Adds a table to the list that a `[[...]]` header names. -/
def openListed (key : String) : Toml → Option Toml
  | table origin entries =>
    match entries.lookup key with
    | none => some (table origin (entries ++ [(key, tables [empty])]))
    | some (tables items) => some (table origin (replaceEntry key (tables (items ++ [empty])) entries))
    | some _ => none
  | _ => none

/-- Adds a value under a key of the table that a dotted path leads to. Only
dotted keys add to a table that dotted keys made, and they add to no other. -/
def assign (path : List String) (key : String) (value : Toml) (t : Toml) : Option Toml :=
  let add (t : Toml) : Option Toml :=
    match t with
    | table .dotted _ => if path.isEmpty then none else addEntry key value t
    | table _ _ => if path.isEmpty then addEntry key value t else none
    | _ => none
  adjust true add path t

end Toml

end CodeMap
