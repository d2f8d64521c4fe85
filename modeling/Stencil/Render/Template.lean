/-
# `Stencil.Render.Template` — rendering compiled templates

A compiled template is rendered any number of times.  Limits may be stated for a run;
where none are, the setting of the environment counts.
-/
import Stencil.Compile.Compiler
import Stencil.Render.Setting
import Stencil.Text.Charset

namespace Stencil

inductive RenderError where
  | conversion (e : ConversionError)
  | setting (e : SettingError)
  | run (e : RunError)
  | undecodable (e : CharsetError)
deriving DecidableEq, Repr

namespace RenderError

def message : RenderError → String
  | conversion e => e.message
  | setting e => e.message
  | run e => e.message
  | undecodable e => e.message

end RenderError

def Context.overlayHost (context : Context) (children : List (String × HostValue)) :
    Except ConversionError Context :=
  children.foldlM (fun context child =>
    (HostValue.convert child.2).map fun value => context.overlay child.1 value) context

namespace Template

def runWithin (template : Template) (limits : Limits) (context : Context) : Except RenderError Bytes :=
  (Machine.run limits template.code context).mapError .run

/-- The output of a template, within limits if they are stated and else within those of
the setting. -/
def run (template : Template) (limits : Option Limits) (setting : Option String)
    (context : Context) : Except RenderError Bytes :=
  match limits with
  | some limits => template.runWithin limits context
  | none =>
    match Limits.ofSetting setting with
    | .ok limits => template.runWithin limits context
    | .error e => .error (.setting e)

theorem run_eq_error {template : Template} {limits : Option Limits} {setting : Option String}
    {context : Context} {e : RenderError} (h : template.run limits setting context = .error e) :
    (∃ d, e = .run d) ∨ ∃ d, e = .setting d := by
  have hwithin : ∀ {limits}, template.runWithin limits context = .error e → ∃ d, e = .run d := by
    intro limits h
    unfold runWithin at h
    cases hrun : Machine.run limits template.code context with
    | ok output => rw [hrun] at h; cases h
    | error d => rw [hrun] at h; cases h; exact ⟨d, rfl⟩
  unfold run at h
  split at h
  · exact .inl (hwithin h)
  · split at h
    · exact .inl (hwithin h)
    next d _ =>
      cases h
      exact .inr ⟨d, rfl⟩

def render (template : Template) (limits : Option Limits) (setting : Option String)
    (charset : Charset) (context : Context) : Except RenderError String := do
  let output ← template.run limits setting context
  (charset.decode output).mapError .undecodable

end Template

end Stencil
