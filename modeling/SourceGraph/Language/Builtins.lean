import SourceGraph.Language.Basic

/-!
# Builtin names

The names that need no definition in a file because the language or its runtime gives them.
-/

set_option autoImplicit false

namespace SourceGraph.Language

/-- Names given by the runtimes of the script languages. -/
def scriptBuiltins : List String :=
  ["Array", "ArrayBuffer", "BigInt", "Boolean", "Buffer", "Date", "Error", "Intl", "JSON", "Map",
   "Math", "Number", "Object", "Promise", "Proxy", "Reflect", "RegExp", "Set", "String", "Symbol",
   "TypeError", "URL", "URLSearchParams", "WeakMap", "WeakSet", "alert", "atob", "btoa",
   "clearInterval", "clearTimeout", "console", "decodeURIComponent", "document",
   "encodeURIComponent", "fetch", "globalThis", "isFinite", "isNaN", "module", "parseFloat",
   "parseInt", "process", "queueMicrotask", "require", "setImmediate", "setInterval", "setTimeout",
   "structuredClone", "super", "window"]

/-- Functions and types that Python gives. -/
def pythonBuiltins : List String :=
  ["abs", "all", "any", "bool", "bytes", "callable", "classmethod", "delattr", "dict", "dir",
   "divmod", "enumerate", "Exception", "filter", "float", "format", "frozenset", "getattr",
   "hasattr", "hash", "id", "input", "int", "isinstance", "issubclass", "iter", "KeyError", "len",
   "list", "map", "max", "min", "next", "object", "open", "print", "property", "range", "repr",
   "reversed", "round", "RuntimeError", "set", "setattr", "sorted", "staticmethod", "str", "sum",
   "super", "tuple", "type", "TypeError", "ValueError", "vars", "zip"]

/-- The builtin names of a language. -/
def builtins : Language → List String
  | python => pythonBuiltins
  | _ => scriptBuiltins

end SourceGraph.Language
