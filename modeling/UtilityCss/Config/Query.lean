import UtilityCss.Error
import UtilityCss.Value.Basic

set_option autoImplicit false

namespace UtilityCss.Config

inductive Query where
  | done (value : Value)
  | fail (error : SettingsError)
  | ask (path : String) (next : Except SettingsError (Option Value) → Query)

namespace Query

def get (path : String) (next : Option Value → Query) : Query :=
  .ask path fun
    | .ok value => next value
    | .error error => .fail error

def getTable (path : String) (next : Table Value → Query) : Query :=
  get path fun
    | some (.table entries) => next entries
    | _ => next []

def reference (path : String) : Query :=
  get path fun
    | some value => .done value
    | none => .fail (.invalidPath ("theme('" ++ path ++ "') does not resolve to a value"))

end Query

/-- A value that is computed when the theme is resolved: a reference to a path, or any query. -/
inductive Deferred where
  | reference (path : String)
  | computed (query : Query)

def Deferred.query : Deferred → Query
  | .reference path => Query.reference path
  | .computed query => query

end UtilityCss.Config
