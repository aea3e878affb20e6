import Bindery.Roster

/-!
# Built-in names

The names that every unit may use without an import: keywords, objects of the language's runtime
and the document model of browsers. A reference to one of them is never tracked.

* `Builtins.standard`: the default set.
* `Builtins.withNames`: the default set and more; **`Builtins.mem_withNames`** lists its members.
-/

namespace Bindery

/-- A set of built-in names. -/
abbrev Builtins := Roster String

namespace Builtins

/-- Keyword types and values. -/
def keywordNames : List String :=
  ["any", "unknown", "never", "void", "undefined", "null", "boolean", "number", "string", "object",
    "symbol", "bigint", "this", "super", "true", "false", "NaN", "Infinity", "globalThis"]

/-- Fundamental objects and errors. -/
def fundamentalNames : List String :=
  ["Object", "Function", "Boolean", "Symbol", "Error", "EvalError", "RangeError", "ReferenceError",
    "SyntaxError", "TypeError", "URIError", "AggregateError"]

/-- Numbers, text and collections. -/
def collectionNames : List String :=
  ["Number", "BigInt", "Math", "Date", "String", "RegExp", "Array", "Int8Array", "Uint8Array",
    "Uint8ClampedArray", "Int16Array", "Uint16Array", "Int32Array", "Uint32Array", "Float32Array",
    "Float64Array", "BigInt64Array", "BigUint64Array", "Map", "Set", "WeakMap", "WeakSet",
    "WeakRef", "FinalizationRegistry", "ArrayBuffer", "SharedArrayBuffer", "DataView", "Atomics",
    "JSON"]

/-- Control abstraction and reflection. -/
def controlNames : List String :=
  ["Promise", "Generator", "GeneratorFunction", "AsyncFunction", "AsyncGenerator",
    "AsyncGeneratorFunction", "Iterator", "AsyncIterator", "Reflect", "Proxy", "Intl"]

/-- Utility types. -/
def utilityTypeNames : List String :=
  ["Partial", "Required", "Readonly", "Record", "Pick", "Omit", "Exclude", "Extract", "NonNullable",
    "Parameters", "ConstructorParameters", "ReturnType", "InstanceType", "Awaited", "ThisType",
    "PromiseLike", "ArrayLike", "Iterable", "IterableIterator", "PropertyKey",
    "TemplateStringsArray"]

/-- Functions of the global object. -/
def globalFunctionNames : List String :=
  ["eval", "isFinite", "isNaN", "parseFloat", "parseInt", "decodeURI", "decodeURIComponent",
    "encodeURI", "encodeURIComponent", "setTimeout", "clearTimeout", "setInterval", "clearInterval",
    "requestAnimationFrame", "cancelAnimationFrame", "queueMicrotask", "structuredClone", "fetch",
    "alert", "confirm", "prompt"]

/-- Objects of the browser. -/
def browserNames : List String :=
  ["window", "document", "console", "navigator", "location", "history", "localStorage",
    "sessionStorage", "performance", "crypto", "customElements", "Node", "Element", "HTMLElement",
    "HTMLInputElement", "HTMLTemplateElement", "HTMLSlotElement", "HTMLCollection", "NodeList",
    "ShadowRoot", "Document", "DocumentFragment", "Text", "Comment", "Event", "CustomEvent",
    "KeyboardEvent", "MouseEvent", "PointerEvent", "TouchEvent", "FocusEvent", "EventTarget",
    "MutationObserver", "ResizeObserver", "IntersectionObserver", "CSSStyleSheet", "DOMRect",
    "Blob", "File", "FileReader", "FormData", "Headers", "Request", "Response", "URL",
    "URLSearchParams", "WebSocket", "Worker", "XMLHttpRequest", "AbortController", "AbortSignal",
    "TextEncoder", "TextDecoder"]

/-- The default names. -/
def standardNames : List String :=
  keywordNames ++ fundamentalNames ++ collectionNames ++ controlNames ++ utilityTypeNames ++
    globalFunctionNames ++ browserNames

/-- The default set. -/
def standard : Builtins := Roster.ofList standardNames

/-- The default set and the given names. -/
def withNames (extra : List String) : Builtins := standard.insertAll extra

/-- The given names alone. -/
def only (names : List String) : Builtins := Roster.ofList names

theorem mem_withNames {extra : List String} {name : String} :
    name ∈ withNames extra ↔ name ∈ standardNames ∨ name ∈ extra := by
  simp [withNames, standard]

end Builtins

end Bindery
