import V8Core.Objects.Bitwise
import V8Core.Objects.Shift
import V8Core.Objects.Truncate
import V8Core.Objects.Words
import V8Core.Objects.Serialize
import V8Core.Objects.ToDouble
import V8Core.Base.Vlq
import V8Core.Bigint.MulToom
import V8Core.Bigint.DivSchoolbook
import V8Core.Bigint.Portable
import V8Core.Bigint.FromString
import V8Core.Base.RegionRuns
import V8Core.Wasm.Intersection
import V8Core.Wasm.Isorecursive
import V8Core.Wasm.StreamingChunks
import V8Core.Strings.SearchRuns
import V8Core.Strings.UnicodeDecoder
import V8Core.Strings.Uri
import V8Core.Json.ObjectElements
import V8Core.Json.StringLiterals
import V8Core.Date.RoundTrip
import V8Core.Compiler.MemoryIndex
import V8Core.Compiler.Rewriting
import V8Core.Numbers.NumberStrings
import V8Core.Regexp.CharacterRange
import V8Core.Regexp.DeferredActions
import V8Core.Execution.MicrotaskQueue
import V8Core.Wasm.StructTypes
