import VirtualDom.Dispatch
import VirtualDom.Main
import VirtualDom.Proofs.Document.Html
import VirtualDom.Proofs.Document.Identity
import VirtualDom.Proofs.Document.Site
import VirtualDom.Proofs.Ownership.Callbacks
import VirtualDom.Proofs.Ownership.Calm
import VirtualDom.Proofs.Ownership.Mount
import VirtualDom.Proofs.Ownership.Slots
import VirtualDom.Proofs.Tool.History
import VirtualDom.Proofs.View.Data
import VirtualDom.Proofs.View.FirstNode
import VirtualDom.Proofs.View.Release
import VirtualDom.Proofs.View.Unchanged
import VirtualDom.Proofs.View.Bag
import VirtualDom.Proofs.Text.Words
import VirtualDom.Proofs.View.Facet
import VirtualDom.Proofs.View.Current
import VirtualDom.Proofs.Document.Twin
import VirtualDom.Proofs.View.Heedless
import VirtualDom.Proofs.Document.Emptied
import VirtualDom.Proofs.View.Clear
import VirtualDom.Proofs.View.Renewal
import VirtualDom.Proofs.View.Classes
import VirtualDom.Proofs.Template.Acceptance
import VirtualDom.Proofs.View.Shared
import VirtualDom.Proofs.View.Revival
import VirtualDom.Proofs.View.Shift
import VirtualDom.Proofs.View.Replacement
import VirtualDom.Proofs.View.Economy
import VirtualDom.Proofs.Markup.Decoding
import VirtualDom.Proofs.Markup.ErrorPlace
import VirtualDom.Proofs.View.Room
import VirtualDom.Proofs.View.Payload
import VirtualDom.Proofs.Dispatch
import VirtualDom.Proofs.Template.Survey
