import Soshal.Library.Relational

/-! The schema of version 1: its tables with their keys and references, its indexes,
and its search tables and triggers by name.
-/

set_option autoImplicit false

namespace Soshal.Db

open Library.Relational

structure Index where
  name : String
  table : String
  columns : List String
  isUnique : Bool
  deriving DecidableEq

structure Trigger where
  name : String
  table : String
  deriving DecidableEq

def v1Layouts : List (String × Layout) := [
  ("users", ⟨["pubkey", "npub", "name", "display_name", "about", "picture", "banner", "nip05", "lud16", "created_at",
    "updated_at", "metadata_json", "contact_pubkeys", "relay_list", "follower_count"], ["pubkey"], []⟩),
  ("posts", ⟨["id", "pubkey", "content", "kind", "created_at", "tags_json", "sig", "reply_to", "root_id",
    "mentioned_pubkeys", "mentioned_hashtags", "subject", "sync_status", "is_deleted", "scheduled_at", "freenet_key",
    "is_freenet_native", "rsvp_event_id", "category", "reposts_count", "event_lat", "event_lng"], ["id"], [⟨"pubkey",
    "users", "pubkey", true⟩]⟩),
  ("messages", ⟨["id", "conversation_id", "pubkey", "content", "created_at", "tags_json", "reply_to", "sync_status",
    "is_deleted"], ["id"], [⟨"pubkey", "users", "pubkey", true⟩]⟩),
  ("reactions", ⟨["id", "event_id", "pubkey", "content", "created_at", "kind"], ["id"], [⟨"pubkey", "users",
    "pubkey", true⟩]⟩),
  ("zaps", ⟨["id", "event_id", "recipient_pubkey", "sender_pubkey", "amount_msat", "bolt11", "preimage", "comment",
    "created_at", "pubkey", "amount", "content", "zap_type"], ["id"], []⟩),
  ("notifications", ⟨["id", "pubkey", "type", "event_id", "from_pubkey", "content", "created_at", "is_read"], ["id"],
    [⟨"pubkey", "users", "pubkey", true⟩]⟩),
  ("bookmarks", ⟨["id", "pubkey", "event_id", "title", "created_at"], ["id"], [⟨"pubkey", "users", "pubkey", true⟩]⟩),
  ("blocks", ⟨["pubkey", "blocked_pubkey", "created_at"], ["pubkey", "blocked_pubkey"], [⟨"pubkey", "users",
    "pubkey", true⟩]⟩),
  ("ignored_notifications", ⟨["pubkey", "from_pubkey", "event_id", "kind", "created_at"], ["pubkey", "kind",
    "from_pubkey", "event_id"], []⟩),
  ("groups", ⟨["id", "name", "about", "picture", "pubkey", "created_at", "updated_at", "access_type", "relay",
    "sync_status", "password_hash"], ["id"], []⟩),
  ("group_members", ⟨["group_id", "pubkey", "role", "joined_at"], ["group_id", "pubkey"], [⟨"group_id", "groups",
    "id", true⟩, ⟨"pubkey", "users", "pubkey", true⟩]⟩),
  ("group_messages", ⟨["id", "group_id", "sender_pubkey", "content", "created_at", "sync_status", "is_deleted",
    "room_id"], ["id"], []⟩),
  ("settings", ⟨["key", "value", "updated_at"], ["key"], []⟩),
  ("relays", ⟨["url", "pubkey", "name", "read_enabled", "write_enabled", "priority", "last_connected_at",
    "health_score"], ["url"], []⟩),
  ("media_blobs", ⟨["id", "pubkey", "url", "file_hash", "file_size", "mime_type", "created_at", "blob_hash"], ["id"],
    [⟨"pubkey", "users", "pubkey", true⟩]⟩),
  ("group_roles", ⟨["id", "group_id", "name", "permissions", "created_at", "color", "position"], ["id"], [⟨"group_id",
    "groups", "id", true⟩]⟩),
  ("audit_logs", ⟨["id", "group_id", "actor_pubkey", "action", "target_pubkey", "details", "created_at"], ["id"],
    []⟩),
  ("reminders", ⟨["id", "event_id", "title", "start_time", "minutes_before", "trigger_at", "created_at"], ["id"],
    []⟩),
  ("hashtags", ⟨["tag", "pubkey", "last_used_at", "count"], ["tag", "pubkey"], []⟩),
  ("reposts", ⟨["id", "pubkey", "event_id", "created_at"], ["id"], [⟨"pubkey", "users", "pubkey", true⟩]⟩),
  ("post_views", ⟨["pubkey", "post_id", "seen_at"], ["pubkey", "post_id"], []⟩),
  ("custom_profiles", ⟨["pubkey", "data", "updated_at"], ["pubkey"], []⟩),
  ("escrows", ⟨["id", "listing_id", "buyer_pubkey", "seller_pubkey", "amount_msats", "currency", "status",
    "escrow_note", "buyer_confirmed", "seller_confirmed", "created_at", "updated_at"], ["id"], []⟩),
  ("ephemeral_media", ⟨["id", "message_id", "conversation_id", "conversation_type", "media_url", "media_type",
    "sender_pubkey", "recipient_pubkey", "max_views", "current_views", "state", "expires_at", "created_at",
    "viewed_at"], ["id"], []⟩),
  ("polls", ⟨["id", "pubkey", "question", "options", "expires_at", "closed", "created_at"], ["id"], []⟩),
  ("poll_votes", ⟨["id", "poll_id", "option_id", "voter_pubkey", "voted_at"], ["id"], []⟩),
  ("marketplace_reviews", ⟨["id", "listing_id", "reviewer_pubkey", "rating", "text", "created_at"], ["id"], []⟩),
  ("spam_reports", ⟨["id", "pubkey", "target_id", "target_pubkey", "reason", "tags", "created_at"], ["id"], []⟩),
  ("tx_nodes", ⟨["id", "kind", "payload_json", "status", "created_at"], ["id"], []⟩),
  ("tx_edges", ⟨["parent_id", "child_id"], ["parent_id", "child_id"], []⟩),
  ("outbox_queue", ⟨["id", "action_type", "payload_json", "media_path", "status", "retry_count", "next_retry_at",
    "created_at"], ["id"], []⟩),
  ("diagnostic_logs", ⟨["id", "level", "service", "method", "message", "created_at"], ["id"], []⟩),
  ("do_not_refetch_items", ⟨["id", "pubkey", "reason", "created_at"], ["id"], []⟩),
  ("custom_profile_nodes", ⟨["id", "user_pubkey", "type", "styles", "properties", "layout_row", "layout_col",
    "sort_order"], ["id"], []⟩),
  ("geohash_peers", ⟨["pubkey", "geohash", "purpose", "first_seen", "last_seen"], ["pubkey"], []⟩),
  ("friend_backups", ⟨["user_pubkey", "encrypted_data", "updated_at"], ["user_pubkey"], []⟩),
  ("link_previews", ⟨["url", "domain", "title", "description", "image", "favicon", "cached_at"], ["url"], []⟩),
  ("stream_chat", ⟨["id", "stream_id", "pubkey", "text", "created_at"], ["id"], []⟩),
  ("guestbook_entries", ⟨["id", "profile_pubkey", "sender_pubkey", "sender_name", "sender_avatar", "content",
    "created_at", "signature", "approved"], ["id"], []⟩),
  ("huddle_posts", ⟨["id", "huddle_id", "pubkey", "content", "created_at", "expires_at"], ["id"], []⟩),
  ("banned_members", ⟨["group_id", "pubkey", "banned_by", "reason", "banned_at"], ["group_id", "pubkey"], []⟩),
  ("group_join_requests", ⟨["group_id", "pubkey", "status", "requested_at"], ["group_id", "pubkey"], []⟩),
  ("group_invites", ⟨["id", "group_id", "created_by", "token", "max_uses", "uses", "expires_at", "created_at"],
    ["id"], []⟩),
  ("musiclouds", ⟨["id", "pubkey", "audio_url", "title", "duration", "text_overlay", "thumbnail", "likes", "liked",
    "bookmarked", "audience", "blob_hash", "media_size", "hashtags", "d", "created_at"], ["id"], []⟩),
  ("musicloud_comments", ⟨["id", "track_id", "pubkey", "content", "created_at"], ["id"], []⟩),
  ("story_reactions", ⟨["story_id", "pubkey", "emoji", "created_at"], ["story_id", "pubkey", "emoji"], []⟩),
  ("muted_conversations", ⟨["conversation_id", "created_at"], ["conversation_id"], []⟩),
  ("dating_unmatches", ⟨["actor_pubkey", "pubkey", "unmatched_at"], ["actor_pubkey", "pubkey"], []⟩),
  ("ignored_entities", ⟨["id", "entity_type", "target_id", "owner_pubkey", "created_at"], ["id"], []⟩),
  ("secret_crushes", ⟨["owner_pubkey", "crush_pubkey", "blinded_hash", "created_at"], ["owner_pubkey",
    "crush_pubkey"], []⟩),
  ("marketplace_offers", ⟨["id", "listing_id", "buyer_pubkey", "seller_pubkey", "amount_sats", "status",
    "created_at"], ["id"], []⟩),
  ("marketplace_saved", ⟨["listing_id", "pubkey", "created_at"], ["listing_id", "pubkey"], []⟩),
  ("musicloud_timed_comments", ⟨["id", "track_id", "pubkey", "timestamp_ms", "content", "created_at"], ["id"], []⟩),
  ("musicloud_playlists", ⟨["id", "pubkey", "title", "is_private", "created_at"], ["id"], []⟩),
  ("musicloud_playlist_tracks", ⟨["playlist_id", "track_id", "pubkey", "d", "title", "thumbnail", "audio_url",
    "blob_hash", "media_size", "audience", "hashtags", "created_at", "position", "added_at"], ["playlist_id",
    "track_id"], []⟩),
  ("saved_content", ⟨["kind", "id", "pubkey", "d", "media_type", "media_url", "text_overlay", "title", "thumbnail",
    "blob_hash", "media_size", "audience", "hashtags", "host_ready", "created_at", "saved_at"], ["kind", "id"], []⟩),
  ("group_rooms", ⟨["id", "group_id", "name", "topic", "emoji", "color", "position", "created_by", "created_at"],
    ["id"], []⟩),
  ("group_threads", ⟨["id", "group_id", "title", "body", "author", "created_at", "is_pinned", "reply_count"], ["id"],
    []⟩),
  ("group_thread_replies", ⟨["id", "thread_id", "parent_id", "author", "content", "created_at"], ["id"], []⟩),
  ("group_voice_channels", ⟨["id", "group_id", "name", "position", "created_by", "created_at"], ["id"], []⟩),
  ("group_voice_presence", ⟨["channel_id", "pubkey", "joined_at"], ["channel_id", "pubkey"], []⟩),
  ("group_thread_reactions", ⟨["thread_id", "reply_id", "pubkey", "emoji", "created_at"], ["thread_id", "reply_id",
    "pubkey", "emoji"], []⟩),
  ("group_room_reactions", ⟨["group_id", "room_id", "message_id", "pubkey", "emoji", "created_at"], ["message_id",
    "pubkey", "emoji"], []⟩),
  ("zk_state_rollups", ⟨["thread_id", "genesis_root", "final_state_root", "operation_count", "verified_at"],
    ["thread_id"], []⟩),
  ("group_shared_keys", ⟨["group_id", "key_hex", "updated_at"], ["group_id"], []⟩),
  ("conversations", ⟨["conversation_id", "last_message_at"], ["conversation_id"], []⟩)]

def v1Indexes : List Index := [
  ⟨"idx_posts_created_at", "posts", ["created_at"], false⟩,
  ⟨"idx_posts_reply_to", "posts", ["reply_to"], false⟩,
  ⟨"idx_posts_root_id", "posts", ["root_id"], false⟩,
  ⟨"idx_posts_feed_cursor", "posts", ["created_at", "id"], false⟩,
  ⟨"idx_posts_recent_cursor", "posts", ["is_deleted", "created_at", "id"], false⟩,
  ⟨"idx_posts_pubkey_created", "posts", ["pubkey", "created_at"], false⟩,
  ⟨"idx_posts_freenet_key", "posts", ["freenet_key"], false⟩,
  ⟨"idx_posts_scheduled", "posts", ["pubkey", "scheduled_at"], false⟩,
  ⟨"idx_posts_pubkey_scheduled_deleted", "posts", ["pubkey", "is_deleted", "scheduled_at"], false⟩,
  ⟨"idx_posts_rsvp_event", "posts", ["rsvp_event_id", "created_at"], false⟩,
  ⟨"idx_posts_kind_category", "posts", ["kind", "category", "is_deleted", "created_at"], false⟩,
  ⟨"idx_posts_kind_rsvp", "posts", ["kind", "rsvp_event_id"], false⟩,
  ⟨"idx_posts_root_created", "posts", ["root_id", "is_deleted", "created_at"], false⟩,
  ⟨"idx_posts_kind_deleted_created", "posts", ["kind", "is_deleted", "created_at"], false⟩,
  ⟨"idx_posts_event_lat_lng", "posts", ["event_lat", "event_lng"], false⟩,
  ⟨"idx_posts_kind_pubkey_deleted_created", "posts", ["kind", "pubkey", "is_deleted", "created_at", "id"], false⟩,
  ⟨"idx_posts_kind_rsvp_pubkey_created", "posts", ["kind", "rsvp_event_id", "pubkey", "created_at", "id"], false⟩,
  ⟨"idx_messages_pubkey", "messages", ["pubkey"], false⟩,
  ⟨"idx_messages_conversation_desc", "messages", ["conversation_id", "is_deleted", "created_at", "id"], false⟩,
  ⟨"idx_messages_conversation_asc", "messages", ["conversation_id", "is_deleted", "created_at"], false⟩,
  ⟨"idx_reactions_pubkey", "reactions", ["pubkey"], false⟩,
  ⟨"idx_reactions_event_created", "reactions", ["event_id", "created_at"], false⟩,
  ⟨"idx_reactions_event_pubkey", "reactions", ["event_id", "pubkey"], false⟩,
  ⟨"idx_zaps_event", "zaps", ["event_id"], false⟩,
  ⟨"idx_zaps_recipient", "zaps", ["recipient_pubkey"], false⟩,
  ⟨"idx_zaps_sender", "zaps", ["sender_pubkey"], false⟩,
  ⟨"idx_zaps_pubkey_created", "zaps", ["pubkey", "created_at"], false⟩,
  ⟨"idx_zaps_event_amount", "zaps", ["event_id", "amount"], false⟩,
  ⟨"idx_zaps_recipient_created", "zaps", ["recipient_pubkey", "created_at"], false⟩,
  ⟨"idx_notifications_pubkey", "notifications", ["pubkey", "created_at"], false⟩,
  ⟨"idx_notifications_unread_created", "notifications", ["pubkey", "is_read", "created_at"], false⟩,
  ⟨"idx_notifications_filter", "notifications", ["pubkey", "type", "is_read", "created_at"], false⟩,
  ⟨"idx_bookmarks_pubkey_created", "bookmarks", ["pubkey", "created_at"], false⟩,
  ⟨"idx_media_hash", "media_blobs", ["file_hash"], false⟩,
  ⟨"idx_media_pubkey_created", "media_blobs", ["pubkey", "created_at"], false⟩,
  ⟨"idx_group_roles_group", "group_roles", ["group_id"], false⟩,
  ⟨"idx_group_roles_group_position", "group_roles", ["group_id", "position"], false⟩,
  ⟨"idx_audit_logs_group", "audit_logs", ["group_id"], false⟩,
  ⟨"idx_audit_logs_actor_created", "audit_logs", ["actor_pubkey", "created_at"], false⟩,
  ⟨"idx_audit_logs_created", "audit_logs", ["created_at"], false⟩,
  ⟨"idx_reminders_event", "reminders", ["event_id"], false⟩,
  ⟨"idx_reminders_start", "reminders", ["start_time"], false⟩,
  ⟨"idx_reminders_trigger", "reminders", ["trigger_at"], false⟩,
  ⟨"idx_reposts_event", "reposts", ["event_id"], false⟩,
  ⟨"idx_reposts_event_pubkey", "reposts", ["event_id", "pubkey"], false⟩,
  ⟨"idx_hashtags_count", "hashtags", ["count"], false⟩,
  ⟨"idx_hashtags_tag_count", "hashtags", ["tag", "count"], false⟩,
  ⟨"idx_group_members_pubkey", "group_members", ["pubkey"], false⟩,
  ⟨"idx_group_members_group_joined", "group_members", ["group_id", "joined_at"], false⟩,
  ⟨"idx_ephemeral_media_message", "ephemeral_media", ["message_id"], false⟩,
  ⟨"idx_ephemeral_media_recipient_created", "ephemeral_media", ["recipient_pubkey", "state", "created_at"], false⟩,
  ⟨"idx_ephemeral_media_expires", "ephemeral_media", ["expires_at"], false⟩,
  ⟨"idx_escrows_listing_created", "escrows", ["listing_id", "created_at"], false⟩,
  ⟨"idx_escrows_buyer_created", "escrows", ["buyer_pubkey", "created_at"], false⟩,
  ⟨"idx_escrows_seller_created", "escrows", ["seller_pubkey", "created_at"], false⟩,
  ⟨"idx_escrows_created", "escrows", ["created_at"], false⟩,
  ⟨"idx_groups_updated_at", "groups", ["updated_at"], false⟩,
  ⟨"idx_users_name", "users", ["name"], false⟩,
  ⟨"idx_users_display_name", "users", ["display_name"], false⟩,
  ⟨"idx_users_npub", "users", ["npub"], false⟩,
  ⟨"idx_users_follower_count", "users", ["follower_count"], false⟩,
  ⟨"idx_post_views_seen", "post_views", ["pubkey", "seen_at"], false⟩,
  ⟨"idx_post_views_post_id", "post_views", ["post_id"], false⟩,
  ⟨"idx_group_messages_group_id", "group_messages", ["group_id"], false⟩,
  ⟨"idx_group_messages_room", "group_messages", ["group_id", "room_id", "is_deleted", "created_at"], false⟩,
  ⟨"idx_group_messages_fetch", "group_messages", ["group_id", "is_deleted", "created_at"], false⟩,
  ⟨"idx_polls_pubkey", "polls", ["pubkey"], false⟩,
  ⟨"idx_poll_votes_poll_id", "poll_votes", ["poll_id"], false⟩,
  ⟨"idx_poll_votes_poll_voter", "poll_votes", ["poll_id", "voter_pubkey"], true⟩,
  ⟨"idx_poll_votes_poll_option", "poll_votes", ["poll_id", "option_id"], false⟩,
  ⟨"idx_marketplace_reviews_listing_id", "marketplace_reviews", ["listing_id"], false⟩,
  ⟨"idx_spam_reports_target_pubkey", "spam_reports", ["target_pubkey"], false⟩,
  ⟨"idx_tx_nodes_created_at", "tx_nodes", ["created_at"], false⟩,
  ⟨"idx_outbox_queue_status", "outbox_queue", ["status"], false⟩,
  ⟨"idx_outbox_queue_pending", "outbox_queue", ["status", "next_retry_at"], false⟩,
  ⟨"idx_outbox_queue_created", "outbox_queue", ["status", "created_at"], false⟩,
  ⟨"idx_diagnostic_logs_level_created", "diagnostic_logs", ["level", "created_at"], false⟩,
  ⟨"idx_diagnostic_logs_created", "diagnostic_logs", ["created_at"], false⟩,
  ⟨"idx_do_not_refetch_items_created", "do_not_refetch_items", ["created_at"], false⟩,
  ⟨"idx_custom_profile_nodes_user", "custom_profile_nodes", ["user_pubkey"], false⟩,
  ⟨"idx_geohash_peers_geohash", "geohash_peers", ["geohash", "last_seen"], false⟩,
  ⟨"idx_geohash_peers_purpose", "geohash_peers", ["purpose"], false⟩,
  ⟨"idx_geohash_peers_purpose_seen", "geohash_peers", ["purpose", "last_seen"], false⟩,
  ⟨"idx_geohash_peers_last_seen", "geohash_peers", ["last_seen"], false⟩,
  ⟨"idx_link_previews_cached", "link_previews", ["cached_at"], false⟩,
  ⟨"idx_stream_chat_stream", "stream_chat", ["stream_id", "created_at"], false⟩,
  ⟨"idx_stream_chat_pubkey", "stream_chat", ["pubkey", "created_at"], false⟩,
  ⟨"idx_guestbook_entries_profile", "guestbook_entries", ["profile_pubkey", "created_at"], false⟩,
  ⟨"idx_guestbook_entries_approved", "guestbook_entries", ["profile_pubkey", "approved", "created_at"], false⟩,
  ⟨"idx_huddle_posts_huddle", "huddle_posts", ["huddle_id", "created_at"], false⟩,
  ⟨"idx_huddle_posts_expires", "huddle_posts", ["expires_at"], false⟩,
  ⟨"idx_banned_members_group", "banned_members", ["group_id", "banned_at"], false⟩,
  ⟨"idx_group_join_requests_group", "group_join_requests", ["group_id", "status"], false⟩,
  ⟨"idx_group_invites_group", "group_invites", ["group_id", "created_at"], false⟩,
  ⟨"idx_group_invites_token", "group_invites", ["token"], false⟩,
  ⟨"idx_musiclouds_created", "musiclouds", ["created_at"], false⟩,
  ⟨"idx_musiclouds_pubkey", "musiclouds", ["pubkey", "created_at"], false⟩,
  ⟨"idx_musicloud_comments_track", "musicloud_comments", ["track_id", "created_at"], false⟩,
  ⟨"idx_story_reactions_story", "story_reactions", ["story_id", "created_at"], false⟩,
  ⟨"idx_conversations_recent", "conversations", ["last_message_at"], false⟩,
  ⟨"idx_group_rooms_group", "group_rooms", ["group_id", "position"], false⟩,
  ⟨"idx_group_threads_group", "group_threads", ["group_id", "created_at"], false⟩,
  ⟨"idx_group_threads_pinned", "group_threads", ["group_id", "is_pinned", "created_at"], false⟩,
  ⟨"idx_group_thread_replies_thread", "group_thread_replies", ["thread_id", "created_at"], false⟩,
  ⟨"idx_group_thread_replies_parent", "group_thread_replies", ["parent_id", "created_at"], false⟩,
  ⟨"idx_group_voice_channels_group", "group_voice_channels", ["group_id", "position"], false⟩,
  ⟨"idx_group_voice_presence_pubkey", "group_voice_presence", ["pubkey"], false⟩,
  ⟨"idx_gtr_thread", "group_thread_reactions", ["thread_id"], false⟩,
  ⟨"idx_gtr_reply", "group_thread_reactions", ["reply_id"], false⟩,
  ⟨"idx_grr_room", "group_room_reactions", ["group_id", "room_id"], false⟩,
  ⟨"idx_grr_msg", "group_room_reactions", ["message_id"], false⟩,
  ⟨"idx_saved_content_saved_at", "saved_content", ["saved_at"], false⟩,
  ⟨"idx_saved_content_kind_saved", "saved_content", ["kind", "saved_at"], false⟩,
  ⟨"idx_playlist_tracks_pos", "musicloud_playlist_tracks", ["playlist_id", "position"], false⟩]

def v1Search : List (String × List String) := [
  ("posts_fts", ["id", "pubkey", "content", "subject", "category"]),
  ("users_fts", ["pubkey", "npub", "name", "display_name"])]

def v1Triggers : List Trigger := [
  ⟨"posts_ai", "posts"⟩, ⟨"posts_ad", "posts"⟩, ⟨"posts_au", "posts"⟩, ⟨"users_ai", "users"⟩, ⟨"users_ad", "users"⟩,
  ⟨"users_au", "users"⟩, ⟨"reposts_ai", "reposts"⟩, ⟨"reposts_ad", "reposts"⟩]

end Soshal.Db
