import ToolContract.Config.Basic
import ToolContract.Toml.Document

/-!
# Loading configurations

A configuration is a TOML document of limited size, in which no setting may be unknown. It is read
from the path that the caller gives, else from the one in the environment, else from the default
file. Every configuration that is loaded is valid.
-/

set_option autoImplicit false

namespace ToolContract

namespace Config

def defaultPath : String := "protomcp.toml"

def pathVariable : String := "PROTOMCP_CONFIG"

def maxPathLength : Nat := 4096

def ofToml (text : String) : Except ConfigError Config :=
  if maxConfigSize < text.utf8ByteSize then .error .longText
  else
    match Toml.ofText text with
    | .error _ => .error .malformed
    | .ok document =>
      match read? .ignored document.toJson with
      | none => .error .malformed
      | some config =>
        match config.validate with
        | .ok () => .ok config
        | .error cause => .error cause

def ofFile (content : ByteArray) : Except ConfigError Config :=
  if maxConfigSize < content.size then .error .longText
  else
    match String.fromUTF8? content with
    | some text => ofToml text
    | none => .error .notUtf8

/-- The path to read. What the environment variable holds counts only if it is UTF-8. -/
def choosePath (given : Option String) (environment? : Option ByteArray) :
    Except ConfigError String :=
  match given with
  | some path => .ok path
  | none =>
    match environment?.bind String.fromUTF8? with
    | some path => if maxPathLength < path.utf8ByteSize then .error .longPath else .ok path
    | none => .ok defaultPath

/-- Loads a configuration; `readFile?` yields the content of a file that can be read. -/
def load (given : Option String) (environment? : Option ByteArray)
    (readFile? : String → Option ByteArray) : Except ConfigError Config :=
  match choosePath given environment? with
  | .error cause => .error cause
  | .ok path =>
    match readFile? path with
    | some content => ofFile content
    | none => .error .unreadable

end Config

end ToolContract
