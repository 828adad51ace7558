import UtilityCss.Path.Basic

set_option autoImplicit false

namespace UtilityCss

inductive SettingsError where
  | malformedLayer (index : Nat) (base : Path) (details : String)
  | circularReference (chain : List String)
  | deferredFailed (key details : String)
  | invalidPath (details : String)
  | unreadable (location details : String)
  | importFailed (path : Path) (details : String)
  | circularImport (chain : List String)
  | inaccessible (path : Path) (details : String)
  deriving DecidableEq, Repr

def SettingsError.message : SettingsError → String
  | .malformedLayer index base details =>
    "malformed config layer #" ++ toString index ++ " (base '" ++ base.spelling ++ "'): " ++ details
  | .circularReference chain => "circular theme reference: " ++ " -> ".intercalate chain
  | .deferredFailed key details =>
    "deferred value for theme key '" ++ key ++ "' failed: " ++ details
  | .invalidPath details => "invalid theme path: " ++ details
  | .unreadable location details => "failed to parse TOML at '" ++ location ++ "': " ++ details
  | .importFailed path details => "failed to import '" ++ path.spelling ++ "': " ++ details
  | .circularImport chain => "circular preset import: " ++ " -> ".intercalate chain
  | .inaccessible path details => "I/O error on '" ++ path.spelling ++ "': " ++ details

inductive BuildError where
  | config (error : SettingsError)
  | extraction (path : Path) (details : String)
  | generation (details : String)
  | watch (path : Path) (details : String)
  | invalidGlob (pattern details : String)
  | io (details : String)
  | closed
  deriving DecidableEq, Repr

def BuildError.message : BuildError → String
  | .config error => error.message
  | .extraction path details =>
    "failed to extract candidates from '" ++ path.spelling ++ "': " ++ details
  | .generation details => "stylesheet generation failed: " ++ details
  | .watch path details => "failed to watch '" ++ path.spelling ++ "': " ++ details
  | .invalidGlob pattern details => "invalid source glob '" ++ pattern ++ "': " ++ details
  | .io details => "IO error: " ++ details
  | .closed => "build session is closed"

inductive SessionMode where
  | build
  | watch
  | dev
  deriving DecidableEq, Repr

def SessionMode.name : SessionMode → String
  | .build => "build"
  | .watch => "watch"
  | .dev => "dev"

def BuildError.ends : BuildError → SessionMode → Bool
  | .config _, .build => true
  | _, _ => false

end UtilityCss
