import IndentMarkup.Diagnostic.Basic
import IndentMarkup.Template.Tag
import IndentMarkup.Version

/-!
# Targets

Templates are written for a release of the framework that runs them. The target is given
as the text of a version, with or without a `v` in front of it, or not at all. From 1.11.0
on, bindings are written as attributes (`Target.style`).
-/

namespace IndentMarkup

/-- A target that is no version. -/
structure InvalidTarget where
  /-- The text that was given as target. -/
  target : Bytes
  deriving DecidableEq

/-- The error on one line. -/
def InvalidTarget.message (e : InvalidTarget) : Bytes :=
  "'" ++ e.target ++ "': " ++ Kind.invalidTarget.text

namespace Target

/-- The version of a target, if it is given. -/
def version? (target : Bytes) : Except InvalidTarget (Option Version) :=
  if target.isEmpty then .ok none
  else
    match Version.parse? ((Bytes.after? "v" target).getD target) with
    | some v => .ok (some v)
    | none => .error ⟨target⟩

/-- The text of a target's version, which is empty if it is not given. -/
def canonical (target : Bytes) : Except InvalidTarget Bytes :=
  return ((← version? target).map Version.text).getD []

/-- Checks a target without a look at anything else. -/
def validate (target : Bytes) : Except InvalidTarget Unit := (canonical target).map fun _ => ()

/-- How bindings are written for a target: the text of its version is compared with the release
    that is the first to have them as attributes. A target that is not given comes before it. -/
def style (target : Bytes) : Except InvalidTarget BindingStyle := do
  let v ← canonical target
  return if ((Bytes.after? "v" v).bind Version.parse?).any (·.reaches 1 11 0) then .boundAttributes
    else .oneHelper

end Target

end IndentMarkup
