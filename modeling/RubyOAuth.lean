import RubyOAuth.Lib.Bytes
import RubyOAuth.Lib.Base64
import RubyOAuth.Lib.Fallible
import RubyOAuth.Lib.PercentCode
import RubyOAuth.Lib.Pairs
import RubyOAuth.Lib.OrderedHash
import RubyOAuth.Lib.Machine
import RubyOAuth.Lib.Delegation
import RubyOAuth.Lib.Uri
import RubyOAuth.Lib.UriResolve
import RubyOAuth.Model.Value
import RubyOAuth.Model.EmHttp
import RubyOAuth.Model.Helper
import RubyOAuth.Model.Credentials
import RubyOAuth.Model.RequestProxy
import RubyOAuth.Model.Signature
import RubyOAuth.Model.NetHttp
import RubyOAuth.Model.RailsRequest
import RubyOAuth.Model.ClientHelper
import RubyOAuth.Model.SignedRequest
import RubyOAuth.Model.Consumer
import RubyOAuth.Model.Tokens
import RubyOAuth.Model.Session
import RubyOAuth.Proofs.CurlSignatures
import RubyOAuth.Proofs.EmHttp
import RubyOAuth.Proofs.Escaping
import RubyOAuth.Proofs.Normalize
import RubyOAuth.Proofs.Flat
import RubyOAuth.Proofs.Reference
import RubyOAuth.Proofs.Listing
import RubyOAuth.Proofs.Nested
import RubyOAuth.Proofs.LeafOrder
import RubyOAuth.Proofs.NestedOrder
import RubyOAuth.Proofs.Reordering
import RubyOAuth.Proofs.WrappedValues
import RubyOAuth.Proofs.BaseString
import RubyOAuth.Proofs.RackCoverage
import RubyOAuth.Proofs.SplitFields
import RubyOAuth.Proofs.RawSegments
import RubyOAuth.Proofs.Requests
import RubyOAuth.Proofs.RedirectSafety
import RubyOAuth.Proofs.ConnectionTarget
import RubyOAuth.Proofs.HeaderRoundTrip
import RubyOAuth.Proofs.HeaderItems
import RubyOAuth.Proofs.Realm
import RubyOAuth.Proofs.ClientParameters
import RubyOAuth.Proofs.SignedPairs
import RubyOAuth.Proofs.Signing
import RubyOAuth.Proofs.HeaderSigning
import RubyOAuth.Proofs.Resigning
import RubyOAuth.Proofs.SignedUrl
import RubyOAuth.Proofs.QueryString
import RubyOAuth.Proofs.FormScheme
import RubyOAuth.Proofs.BodyData
import RubyOAuth.Proofs.Preview
import RubyOAuth.Proofs.ProviderUrl
import RubyOAuth.Proofs.Agreement
import RubyOAuth.Proofs.BodyCoverage
import RubyOAuth.Proofs.BodyHash
import RubyOAuth.Proofs.RedirectTarget
import RubyOAuth.Proofs.RedirectCondition
import RubyOAuth.Proofs.Verify
import RubyOAuth.Proofs.Outcomes
import RubyOAuth.Proofs.SigningKeys
import RubyOAuth.Proofs.SentSignatures
import RubyOAuth.Proofs.SentHops
import RubyOAuth.Proofs.SecretIndependence
import RubyOAuth.Proofs.Session
import RubyOAuth.Proofs.Registries
import RubyOAuth.Proofs.Server
import RubyOAuth.Proofs.SentContents
import RubyOAuth.Proofs.ReportedProblems
import RubyOAuth.Lib.UriAppend
import RubyOAuth.Lib.DotSegments
import RubyOAuth.Proofs.TokenResponse
import RubyOAuth.Proofs.AbsoluteUrls
import RubyOAuth.Proofs.ConsumerRestored
import RubyOAuth.Proofs.MergedParameters
import RubyOAuth.Proofs.MergedSources
import RubyOAuth.Proofs.AuthorizationUrls
import RubyOAuth.Proofs.FormProxies
import RubyOAuth.Proofs.SharedOptions
import RubyOAuth.Proofs.SignInPlace
import RubyOAuth.Proofs.JabberRequest
import RubyOAuth.Proofs.KeyedNormalize
import RubyOAuth.Proofs.UnsignedFilter
import RubyOAuth.Proofs.UnsignedParameters
