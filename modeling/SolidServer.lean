import SolidServer.Effects.Program
import SolidServer.Effects.Logic
import SolidServer.Effects.Embedding
import SolidServer.Text.Basic
import SolidServer.Text.Encoding
import SolidServer.Text.Iri
import SolidServer.Http
import SolidServer.Http.Fields
import SolidServer.Text.Parser
import SolidServer.Rdf
import SolidServer.Ldp.Content
import SolidServer.Authz.Acl
import SolidServer.Store.Cache
import SolidServer.Store.World
import SolidServer.Store.Composite
import SolidServer.Store.Reading
import SolidServer.Store.Seed
import SolidServer.Authz.Wac
import SolidServer.Authz.Decision
import SolidServer.Ldp.Conditional
import SolidServer.Ldp.Handler
import SolidServer.Store.Writing
import SolidServer.Authz.Grant
import SolidServer.Ldp.Effect
import SolidServer.Ldp.Frame
import SolidServer.Ldp.Mediation
import SolidServer.Ldp.Membership
import SolidServer.Ldp.Append
import SolidServer.Ldp.Denial
import SolidServer.Ldp.Disclosure
import SolidServer.Ldp.PatchDisclosure
import SolidServer.Ldp.Precondition
import SolidServer.Authz.Interference
import SolidServer.Authz.Resolution
import SolidServer.Authz.Linearizability
import SolidServer.Pop.Sig
import SolidServer.Pop.SigBase
import SolidServer.Pop.Spans
import SolidServer.Auth.Token
import SolidServer.Pop.Window
import SolidServer.Pop.Session
import SolidServer.Pop.Verify
import SolidServer.Auth.Cache
import SolidServer.Auth.Replay
import SolidServer.Auth.Middleware
import SolidServer.Auth.PublicReadSkip
import SolidServer.Ldp.Commit
import SolidServer.Ldp.Atomicity
import SolidServer.Ldp.LostUpdate
import SolidServer.Ldp.Validator
import SolidServer.Ldp.Blocks
import SolidServer.Ldp.RoundTrip
import SolidServer.Ldp.NotModified
import SolidServer.Ldp.Conduct
import SolidServer.Ldp.Containment
import SolidServer.Ldp.Slash
import SolidServer.Ldp.Listing
import SolidServer.Ldp.Visible
import SolidServer.Ldp.Announce
import SolidServer.Store.Reconcile
import SolidServer.Store.Garbage
import SolidServer.Store.ReadVersions
import SolidServer.Query.Join
import SolidServer.Ldp.Solutions
import SolidServer.Ldp.Applying
import SolidServer.Ldp.Update
import SolidServer.Text.Lexical
import SolidServer.Ldp.UpdateText
import SolidServer.Text.Trim
import SolidServer.Text.Number
import SolidServer.Ldp.Range
import SolidServer.Ldp.EntityTags
import SolidServer.Ldp.TargetGrammar
import SolidServer.Calendar
import SolidServer.Store.Timestamp
import SolidServer.Ldp.Dates
import SolidServer.Ldp.ModifiedSince
import SolidServer.Authz.Rules
import SolidServer.Pop.WindowModel
import SolidServer.Data.FiniteMap
import SolidServer.Pop.SessionStore
import SolidServer.Store.BodyHistory
import SolidServer.Store.ReconcileReport
import SolidServer.Pop.Routing
import SolidServer.Ldp.Negotiation
import SolidServer.Net.Connections
import SolidServer.Net.Forwarded
import SolidServer.Net.IdleTimeout
import SolidServer.Net.Notifications
