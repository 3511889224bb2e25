import StyleLayers.Config.Basic
import StyleLayers.Sheet.Log

/-!
Handlers: what a plugin does when it runs. A handler reads the configuration, as often as it likes,
and adds styles to the layers; what it adds may depend on what it has read.
-/

namespace StyleLayers

/-- How added styles are treated. Without variants of their own they get those of every group. -/
structure Treatment where
  variants : Option Variants := none
  prefixed : Bool := true
  /-- Counts for utilities only. -/
  important : Bool := true
  deriving DecidableEq, Repr

inductive Call where
  /-- Base styles get no prefix, no importance and no variants. -/
  | base (styles : Styles)
  | components (styles : Styles) (treatment : Treatment)
  | utilities (styles : Styles) (treatment : Treatment)
  deriving Repr

inductive Query where
  | theme (path : String)
  | themeD (path : String) (fallback : Value)
  | config (path : String)
  | configD (path : String) (fallback : Value)
  | variants (key : String)
  | enables (name : String)
  | prefixed (selector : String)
  | escaped (text : String)

namespace Query

abbrev Answer : Query → Type
  | theme _ => Option Value
  | themeD _ _ => Value
  | config _ => Option Value
  | configD _ _ => Value
  | variants _ => Option Variants
  | enables _ => Bool
  | prefixed _ => String
  | escaped _ => String

def answer (c : Config) : (q : Query) → q.Answer
  | theme path => c.theme? path
  | themeD path fallback => c.themeD path fallback
  | config path => c.get? path
  | configD path fallback => c.getD path fallback
  | variants key => c.variants? key
  | enables name => c.enables name
  | prefixed selector => Selector.prefixed c.classPrefix selector
  | escaped text => Css.escape text

end Query

namespace Call

def styles : Call → Styles
  | base s => s
  | components s _ => s
  | utilities s _ => s

def layer : Call → Layer
  | base _ => .base
  | components _ _ => .components
  | utilities _ _ => .utilities

def prefixedRules (c : Config) (t : Treatment) (rs : List Rule) : List Rule :=
  if t.prefixed then Rule.prefixAll c.classPrefix rs else rs

def emphasizedRules (c : Config) (t : Treatment) (rs : List Rule) : List Rule :=
  if t.important then Rule.emphasizeAll c.importance rs else rs

def variantsFor (c : Config) (t : Treatment) : Variants :=
  (t.variants.or c.globalVariants?).getD .empty

def group (c : Config) : Call → Group
  | base s => ⟨s.compile "", .empty⟩
  | components s t => Group.wrap (prefixedRules c t (s.compile "")) (variantsFor c t)
  | utilities s t =>
    Group.wrap (emphasizedRules c t (prefixedRules c t (s.compile ""))) (variantsFor c t)

def addition (c : Config) (call : Call) : Addition := ⟨call.layer, call.group c⟩

def events (c : Config) (call : Call) : List Event :=
  Event.ofStyles "" call.styles ++ [Event.ofAddition (call.addition c)]

end Call

inductive Handler (α : Type) : Type where
  | done (result : α)
  | add (call : Call) (next : Handler α)
  | ask (query : Query) (next : query.Answer → Handler α)

namespace Handler

def bind {α β : Type} (f : α → Handler β) : Handler α → Handler β
  | done a => f a
  | add call next => add call (next.bind f)
  | ask query next => ask query fun answer => (next answer).bind f

instance : Monad Handler where
  pure := done
  bind h f := h.bind f

def calls {α : Type} (c : Config) : Handler α → List Call
  | done _ => []
  | add call next => call :: next.calls c
  | ask query next => (next (query.answer c)).calls c

def result {α : Type} (c : Config) : Handler α → α
  | done a => a
  | add _ next => next.result c
  | ask query next => (next (query.answer c)).result c

def additions {α : Type} (c : Config) (h : Handler α) : List Addition :=
  (h.calls c).map (Call.addition c)

def events {α : Type} (c : Config) (h : Handler α) : List Event :=
  (h.calls c).flatMap (Call.events c)

def query (q : Query) : Handler q.Answer := ask q done

def addBase (styles : Styles) : Handler Unit := add (.base styles) (done ())

def addComponents (styles : Styles) (treatment : Treatment := {}) : Handler Unit :=
  add (.components styles treatment) (done ())

def addUtilities (styles : Styles) (treatment : Treatment := {}) : Handler Unit :=
  add (.utilities styles treatment) (done ())

def theme (path : String) : Handler (Option Value) := query (.theme path)

def themeD (path : String) (fallback : Value) : Handler Value := query (.themeD path fallback)

def config (path : String) : Handler (Option Value) := query (.config path)

def configD (path : String) (fallback : Value) : Handler Value := query (.configD path fallback)

def variants (key : String) : Handler (Option Variants) := query (.variants key)

def enables (name : String) : Handler Bool := query (.enables name)

def prefixed (selector : String) : Handler String := query (.prefixed selector)

def escaped (text : String) : Handler String := query (.escaped text)

end Handler

end StyleLayers
