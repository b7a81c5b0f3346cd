import Ambient.Text.Blank
import Ambient.Text.Union
import Ambient.Json.Reader
import Ambient.Json.Layout
import Ambient.Json.Decoder
import Ambient.Primitive
import Ambient.TypeRef
import Ambient.TypeDecl
import Ambient.DocId
import Ambient.Assembly
import Ambient.Registry
import Ambient.Metadata.Document
import Ambient.Docs
import Ambient.Xml.Event
import Ambient.Docs.Summary
import Ambient.Options
import Ambient.Fault
import Ambient.Warning
import Ambient.Resolver
import Ambient.Render
import Ambient.Signature
import Ambient.Shape
import Ambient.MemberGroups
import Ambient.Block
import Ambient.Factory
import Ambient.Generator
import Ambient.Proofs.TypeScript.Denotation
import Ambient.Proofs.Metadata.RoundTrip
import Ambient.Proofs.StrayLines
import Ambient.Proofs.Warnings
import Ambient.Proofs.Comments
import Ambient.Proofs.Caching
import Ambient.Proofs.Docs.Spelling
import Ambient.Proofs.BlockText
import Ambient.Proofs.DocId.Member
import Ambient.Proofs.Links
import Ambient.Proofs.Repeats
import Ambient.Proofs.Docs.Labels
import Ambient.Proofs.CommentLines
import Ambient.Proofs.Unions
import Ambient.Proofs.Factory
import Ambient.Proofs.Validation
import Ambient.Proofs.DocId.ShortName
import Ambient.Proofs.Docs.Index
import Ambient.Proofs.Undeclared
import Ambient.Proofs.Text.Brackets
