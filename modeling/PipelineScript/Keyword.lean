import PipelineScript.Text.Basic

/-!
# Keywords

A word is a keyword if it is spelled exactly like one; case is never folded.
Fourteen keywords start a statement, the others join its parts.
-/

namespace PipelineScript

inductive Keyword
  | load
  | save
  | select
  | insert
  | create
  | drop
  | refresh
  | set
  | connect
  | train
  | run
  | register
  | unregister
  | include
  | options
  | conditions
  | as
  | and
  | partitionBy
  | overwrite
  | append
  | errorIfExists
  | ignore
  deriving Repr, DecidableEq

namespace Keyword

def all : List Keyword :=
  [.load, .save, .select, .insert, .create, .drop, .refresh, .set, .connect, .train, .run, .register,
   .unregister, .include, .options, .conditions, .as, .and, .partitionBy, .overwrite, .append,
   .errorIfExists, .ignore]

theorem mem_all (k : Keyword) : k ∈ all := by cases k <;> decide

def canonical : Keyword → String
  | .load => "load"
  | .save => "save"
  | .select => "select"
  | .insert => "insert"
  | .create => "create"
  | .drop => "drop"
  | .refresh => "refresh"
  | .set => "set"
  | .connect => "connect"
  | .train => "train"
  | .run => "run"
  | .register => "register"
  | .unregister => "unregister"
  | .include => "include"
  | .options => "options"
  | .conditions => "where"
  | .as => "as"
  | .and => "and"
  | .partitionBy => "partitionBy"
  | .overwrite => "overwrite"
  | .append => "append"
  | .errorIfExists => "errorIfExists"
  | .ignore => "ignore"

/-- The further spellings: every statement head in upper case, and two in lower case. -/
def variants : Keyword → List String
  | .load => ["LOAD"]
  | .save => ["SAVE"]
  | .select => ["SELECT"]
  | .insert => ["INSERT"]
  | .create => ["CREATE"]
  | .drop => ["DROP"]
  | .refresh => ["REFRESH"]
  | .set => ["SET"]
  | .connect => ["CONNECT"]
  | .train => ["TRAIN"]
  | .run => ["RUN"]
  | .register => ["REGISTER"]
  | .unregister => ["unRegister", "UNREGISTER"]
  | .include => ["INCLUDE"]
  | .partitionBy => ["partitionby"]
  | _ => []

def spellings (k : Keyword) : List Text := (k.canonical :: k.variants).map String.toList

def ofWord? (w : Text) : Option Keyword := all.find? fun k => k.spellings.contains w

theorem mem_spellings_of_ofWord? {w : Text} {k : Keyword} (h : ofWord? w = some k) : w ∈ k.spellings := by
  have := List.find?_some h
  simpa using this

theorem ofWord?_spellings : ∀ k ∈ all, ∀ w ∈ k.spellings, ofWord? w = some k := by decide

theorem ofWord?_eq_some_iff {w : Text} {k : Keyword} : ofWord? w = some k ↔ w ∈ k.spellings :=
  ⟨mem_spellings_of_ofWord?, ofWord?_spellings k (mem_all k) w⟩

def isHead : Keyword → Bool
  | .options | .conditions | .as | .and | .partitionBy | .overwrite | .append | .errorIfExists | .ignore => false
  | _ => true

end Keyword

end PipelineScript
