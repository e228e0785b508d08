import StringResources.Text.Basic

/-! Names of resource files. A name is one component of a path and neither of the two that stand for
    directories. -/

namespace StringResources

inductive FileName.Fault where
  | empty
  /-- The text stands for a directory. -/
  | dots
  | separator
  | nul
  deriving DecidableEq, Repr

namespace FileName

def fault? (t : Text) : Option Fault :=
  if t = [] then some .empty
  else if t = ['.'] ∨ t = ['.', '.'] then some .dots
  else if '/' ∈ t ∨ '\\' ∈ t then some .separator
  else if '\x00' ∈ t then some .nul
  else none

def Fault.message : Fault → Text
  | .empty => "file name cannot be empty".toList
  | .dots => "file name cannot be '.' or '..'".toList
  | .separator => "file name cannot contain a path separator".toList
  | .nul => "file name cannot contain NUL".toList

end FileName

structure FileName where
  text : Text
  admitted : FileName.fault? text = none
  deriving DecidableEq

def FileName.ofText (t : Text) : Except Fault FileName :=
  match h : fault? t with
  | none => .ok { text := t, admitted := h }
  | some fault => .error fault

end StringResources
