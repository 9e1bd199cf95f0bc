import SwarmAuth.Lib.PrefixCode
import SwarmAuth.Lib.Unicode
import SwarmAuth.Lib.JsonTree
import SwarmAuth.Lib.JsonText
import SwarmAuth.Lib.JsonReading
import SwarmAuth.Lib.JsonReject
import SwarmAuth.Lib.JsonWeight
import SwarmAuth.Lib.JsonEquality
import SwarmAuth.Lib.JsonPaths
import SwarmAuth.Lib.Decimal
import SwarmAuth.Lib.Binary64
import SwarmAuth.Lib.Integers
import SwarmAuth.Lib.Rounding
import SwarmAuth.Lib.Numeral
import SwarmAuth.Lib.Canonical
import SwarmAuth.Lib.Base64Url
import SwarmAuth.Lib.Checks
import SwarmAuth.Lib.Wildcard
import SwarmAuth.Lib.Runs
import SwarmAuth.Lib.Allowance
import SwarmAuth.Lib.Store
import SwarmAuth.Lib.Deadlines
import SwarmAuth.Lib.Recency
import SwarmAuth.Lib.Isolation
import SwarmAuth.Lib.Substitution
import SwarmAuth.Lib.Optimistic
import SwarmAuth.Python.Json
import SwarmAuth.Python.Claims
import SwarmAuth.Python.Errors
import SwarmAuth.Python.Attenuation
import SwarmAuth.Python.CallBinding
import SwarmAuth.Python.Token
import SwarmAuth.Python.Verify
import SwarmAuth.Python.Registry
import SwarmAuth.Python.Policy
import SwarmAuth.Python.Minting
import SwarmAuth.Python.Enforcement
import SwarmAuth.Python.Asyncio
import SwarmAuth.Python.Decisions
import SwarmAuth.Python.Revocation
import SwarmAuth.Python.RedisRevocation
import SwarmAuth.Python.Usage
import SwarmAuth.Python.AmountCharges
import SwarmAuth.Python.AsyncRevocation
import SwarmAuth.Python.Budgets
import SwarmAuth.Python.BudgetRuns
import SwarmAuth.Python.RedisLedger
import SwarmAuth.Python.RedisUsage
import SwarmAuth.Python.RedisIsolation
import SwarmAuth.Python.RedisClients
import SwarmAuth.Python.RedisAllowances
import SwarmAuth.Python.Reservations
import SwarmAuth.Python.Approvals
import SwarmAuth.Python.ApprovalRuns
import SwarmAuth.Python.ApprovalBinding
import SwarmAuth.Python.RequestDigest
import SwarmAuth.Python.ApprovalIssue
import SwarmAuth.Js.Value
import SwarmAuth.Js.Encoder
import SwarmAuth.Js.Replace
import SwarmAuth.Js.Wire
import SwarmAuth.Js.Reading
import SwarmAuth.Node.Encode
import SwarmAuth.Node.Token
import SwarmAuth.Node.Patterns
import SwarmAuth.Node.Wire
import SwarmAuth.Node.RoundTrip
import SwarmAuth.Node.Amounts
import SwarmAuth.TypeScript.CanonicalJson
import SwarmAuth.TypeScript.Token
import SwarmAuth.Interop.CanonicalJson
import SwarmAuth.Interop.Amounts
import SwarmAuth.Interop.Totals
import SwarmAuth.Interop.LedgerKeys
import SwarmAuth.Go.Json
import SwarmAuth.Go.Marshal
import SwarmAuth.Go.Token
import SwarmAuth.Go.Enforcement
import SwarmAuth.Go.EnforcementRuns
import SwarmAuth.Interop.Pins
import SwarmAuth.Interop.Verify
import SwarmAuth.Node.Alike
import SwarmAuth.Node.Signed
import SwarmAuth.Node.Attenuate
import SwarmAuth.Node.Policy
import SwarmAuth.TypeScript.Verify
import SwarmAuth.Node.Budgets
import SwarmAuth.Node.RedisLedger
import SwarmAuth.Interop.Ledgers
import SwarmAuth.Interop.SharedLedger
import SwarmAuth.Interop.MixedLedger
import SwarmAuth.Node.Enforcement
import SwarmAuth.Node.Usage
import SwarmAuth.Node.Revocation
import SwarmAuth.Node.EventLoop
import SwarmAuth.Python.Events
import SwarmAuth.Interop.Registries
import SwarmAuth.Node.BudgetRuns
