import TypedApi.Main
import TypedApi.SourceType.Encoding
import TypedApi.Proofs.Route.Validity
import TypedApi.Proofs.Route.RoundTrip
import TypedApi.Proofs.Api.Completeness
import TypedApi.Proofs.SchemaTable.Translation
import TypedApi.Proofs.TypeScript.Client
import TypedApi.Proofs.SchemaTable.Settling
import TypedApi.Proofs.SchemaTable.Retention
import TypedApi.Proofs.SchemaTable.References
import TypedApi.Proofs.SchemaTable.Order
import TypedApi.Proofs.Api.Closed
import TypedApi.Proofs.TypeScript.Numbering
import TypedApi.Proofs.TypeScript.Package
import TypedApi.Proofs.TypeScript.Imports
import TypedApi.Proofs.Api.Operations
import TypedApi.Proofs.Json.Stability
import TypedApi.Proofs.Json.StableRecord
import TypedApi.Proofs.OpenApi.Stability
import TypedApi.Proofs.SourceType.Encoding
import TypedApi.Proofs.SourceType.Stability
import TypedApi.Proofs.Json.CompactReading
import TypedApi.Proofs.SourceType.RoundTrip
import TypedApi.Proofs.TypeScript.Grammar
import TypedApi.Proofs.TypeScript.Tokens
import TypedApi.Proofs.TypeScript.Phrases
import TypedApi.Proofs.TypeScript.Meaning
import TypedApi.Proofs.TypeScript.Collision
import TypedApi.Proofs.Api.Answers
import TypedApi.Proofs.TypeScript.Comment
import TypedApi.Proofs.TypeScript.Declared
import TypedApi.Proofs.TypeScript.Places
import TypedApi.Proofs.SchemaTable.Selection
import TypedApi.Proofs.SchemaTable.Nullability
import TypedApi.Proofs.SchemaTable.Layers
import TypedApi.Proofs.SchemaTable.ContentPattern
import TypedApi.Proofs.Api.Streams
import TypedApi.Proofs.Route.Repetition
import TypedApi.Proofs.Route.MediaType
import TypedApi.Proofs.Api.Recognition
import TypedApi.Proofs.Route.Precedence
import TypedApi.Proofs.TypeExpr.Nullable
import TypedApi.Proofs.Api.Parameters
import TypedApi.Proofs.Route.Placeholders
import TypedApi.Proofs.Route.Template
import TypedApi.Proofs.OpenApi.Accumulation
import TypedApi.Proofs.TypeScript.Widening
import TypedApi.Proofs.TypeScript.SelfReference
import TypedApi.Proofs.SchemaTable.Tuples
import TypedApi.Proofs.TypeScript.Quoted
import TypedApi.Proofs.TypeScript.Namespace
import TypedApi.Proofs.Route.Objects
import TypedApi.Proofs.Route.Versions
import TypedApi.Proofs.SourceType.Overlay
import TypedApi.Proofs.TypeScript.Rewritten
