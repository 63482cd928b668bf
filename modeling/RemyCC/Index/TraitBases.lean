import RemyCC.Index.Resolve

/-!
# Bases of Rust types

The bases of the structs and enums of Rust files are derived anew from the
trait implementations found anywhere in the index.
-/

namespace RemyCC.Index

open Relational Text

def SymbolRow.isType (s : SymbolRow) : Bool := s.type == "struct" || s.type == "enum"

def onlyOne {α : Type} : List α → Option α
  | [a] => some a
  | _ => none

/-- The symbols that pass a test, in the order of path and name. -/
def symbolKeysWhere (p : SymbolRow → Bool) (d : Database) : List (String × String) :=
  (orderBy symbolOrder (d.symbols.rows.filter p)).map SymbolRow.key

/-- A type that its own file names exactly, else one of its file by the short
name, else the only one of all Rust files by the short name. -/
def resolveRustImplTarget (implFile fullType : String) (d : Database) : Option (String × String) :=
  let exactly := symbolKeysWhere
    (fun s => s.filePath == implFile && s.name == fullType && s.isType) d
  match onlyOne exactly with
  | some target => some target
  | none =>
    let short := lastPart '.' fullType
    let sameFile := symbolKeysWhere
      (fun s => s.filePath == implFile && s.shortName == short && s.isType) d
    if sameFile = [] then
      onlyOne (symbolKeysWhere
        (fun s => s.shortName == short && s.isType && like "%.rs" s.filePath) d)
    else onlyOne sameFile

def patternsOf (patternType : String) (d : Database) : List PatternRow :=
  d.patterns.filter fun p => p.patternType == patternType

def lineOf (p : PatternRow) : Int := p.line.getD 0

structure TraitImpl where
  file : String
  traitName : String
  fullType : String
  deriving DecidableEq, Repr

def traitImplOf (p : PatternRow) : Option TraitImpl :=
  match p.signalName, p.handler with
  | some signal, some handler => some ⟨p.filePath, signal, handler⟩
  | _, _ => none

def traitImpls (d : Database) : List TraitImpl :=
  (orderBy (compareLex (compareOn PatternRow.filePath) (compareLex (compareOn lineOf)
    (compareLex (compareOn PatternRow.signalName) (compareOn PatternRow.handler))))
    (patternsOf "rust_trait_impl" d)).filterMap traitImplOf

def traitsOf (target : String × String) (d : Database) : List String :=
  ((traitImpls d).filter fun t =>
    resolveRustImplTarget t.file t.fullType d == some target).foldl
      (fun traits t => if traits.contains t.traitName then traits else traits ++ [t.traitName]) []

def derivedBases (d : Database) (s : SymbolRow) : Option String :=
  match traitsOf s.key d with
  | [] => none
  | traits => some (Json.dumpsDefault (.arr (traits.map .str)))

def overwriteRustTraitBases (d : Database) : Database :=
  { d with
    symbols := d.symbols.update
      (fun s => if s.isType && like "%.rs" s.filePath then { s with bases := derivedBases d s }
        else s)
      (by
        intro s
        split <;> rfl) }

end RemyCC.Index
